/-
The two sides of the DMA engine, cycle by cycle.

Each side is a cursor over the chunks that its FIFOs hold the descriptors of. A beat on the R
channel puts the next piece of the read side on the lanes of the buffer (`read_beat`); a beat
on the W channel takes the next piece of the write side off them (`write_beat`).
-/
import Pspin.Cursor
import Pspin.DmaBursts

set_option autoImplicit false

namespace Pspin.AxiDma

open ByteLanes

variable {c : Cfg} {b : Chunk} {j l : ℕ}

/-- Byte lane `l` belongs to beat `j` of the chunk. -/
def Chunk.Selects (c : Cfg) (b : Chunk) (j l : ℕ) : Prop :=
  b.offset c ≤ j * c.StrbWidth + l ∧ j * c.StrbWidth + l < b.offset c + b.len

instance : Decidable (b.Selects c j l) := inferInstanceAs (Decidable (_ ∧ _))

/-- Both sides: the masks of a beat. -/
theorem selects_iff (h : b.Fits c) (hj : j ≤ b.beats c) (hl : l < c.StrbWidth) :
    b.Selects c j l ↔ (j = 0 → DataPath.first_mask (b.offset c) l = true) ∧
      (j = b.beats c → (b.len + b.offset c) % c.StrbWidth ≠ 0 →
        DataPath.last_mask c ((b.len + b.offset c) % c.StrbWidth) l = true) := by
  have hmod := Nat.mod_lt (b.len + b.offset c) c.strb_pos
  rw [Chunk.Selects, ← mask_iff c.strb_pos h.pos b.offset_lt hj hl, Chunk.beats,
    DataPath.first_mask, DataPath.last_mask, decide_eq_true_iff, decide_eq_true_iff,
    Nat.sub_sub_self hmod.le]

/-- The bytes of beat `j`, by their place in the chunk. -/
theorem selects_of_mem {k : ℕ} (hk : b.start c j ≤ k) (hk' : k < b.start c (j + 1)) :
    ∃ l < c.StrbWidth, b.Selects c j l ∧ b.offset c + k = j * c.StrbWidth + l := by
  obtain ⟨hlen, hlo, hhi⟩ := mem_beat_iff.mp ⟨hk, hk'⟩
  obtain ⟨l, hl⟩ := Nat.exists_eq_add_of_le hlo
  refine ⟨l, by omega, ⟨?_, ?_⟩, hl⟩
  · omega
  · omega

theorem mem_of_selects (hl : l < c.StrbWidth) (h : b.Selects c j l) :
    ∃ k, b.start c j ≤ k ∧ k < b.start c (j + 1) ∧ b.offset c + k = j * c.StrbWidth + l := by
  obtain ⟨hlo, hhi⟩ := h
  refine ⟨j * c.StrbWidth + l - b.offset c, ?_⟩
  rw [← and_assoc, Chunk.start, Chunk.start, mem_beat_iff]
  omega

/-- A byte is on the lane of its address. -/
theorem addr_mod {k : ℕ} (hl : l < c.StrbWidth) (h : b.offset c + k = j * c.StrbWidth + l) :
    (b.addr + k) % c.StrbWidth = l := by
  have hdiv := Nat.div_add_mod' b.addr c.StrbWidth
  have hsum : b.addr + k = (b.addr / c.StrbWidth + j) * c.StrbWidth + l := by
    rw [Nat.add_mul]
    rw [Chunk.offset] at h
    omega
  rw [hsum, Nat.mul_add_mod_of_lt hl]

theorem addr_eq {k : ℕ} (h : b.offset c + k = j * c.StrbWidth + l) :
    b.addr + k = b.addr / c.StrbWidth * c.StrbWidth + j * c.StrbWidth + l := by
  have hdiv := Nat.div_add_mod' b.addr c.StrbWidth
  rw [Chunk.offset] at h
  omega

/-! ## Pieces -/

theorem read_cuts (c : Cfg) (mem : ℕ → Byte) :
    Cursor.Cuts (fun b : ReadChunk => b.beats c) (ReadChunk.pairs mem) fun b => b.start c where
  zero b := start_zero
  mono b j := start_mono
  total b := by
    rw [ReadChunk.pairs, AxiIncr.length_stretch]
    exact start_beats c.strb_pos _ _

theorem write_cuts (c : Cfg) : Cursor.Cuts (fun b : Chunk => b.beats c) Chunk.bytes fun b => b.start c where
  zero b := start_zero
  mono b j := start_mono
  total b := by
    rw [Chunk.bytes, List.length_range']
    exact start_beats c.strb_pos _ _

theorem drop_stretch {D : Type*} (a n m : ℕ) (f : ℕ → D) :
    (AxiIncr.stretch a n f).drop m = AxiIncr.stretch (a + m) (n - m) fun i => f (m + i) := by
  rw [AxiIncr.stretch, AxiIncr.stretch, ← List.map_drop, List.range_eq_range', List.drop_range',
    List.range_eq_range', Nat.mul_one, Nat.zero_add, List.range'_eq_map_range, List.range_eq_range', List.map_map]
  apply List.map_congr_left
  intro i _
  simp [Nat.add_assoc]

theorem take_stretch {D : Type*} (a n m : ℕ) (f : ℕ → D) :
    (AxiIncr.stretch a n f).take m = AxiIncr.stretch a (min m n) f := by
  rw [AxiIncr.stretch, AxiIncr.stretch, ← List.map_take, List.take_range]

/-- Beat `j` of a chunk that is read. -/
theorem read_piece {k : Cursor ReadChunk} {b : ReadChunk} {rest : List ReadChunk} (mem : ℕ → Byte)
    (htodo : k.todo = b :: rest) : k.piece (ReadChunk.pairs mem) (fun b => b.start c) =
      AxiIncr.stretch (b.dst + b.start c k.part) (b.start c (k.part + 1) - b.start c k.part)
        fun i => mem (b.addr + (b.start c k.part + i)) := by
  have hle : b.start c (k.part + 1) ≤ b.len := start_le
  rw [Cursor.piece, htodo]
  dsimp only
  rw [ReadChunk.pairs, drop_stretch, take_stretch, Nat.min_eq_left (by omega)]

theorem write_piece {k : Cursor Chunk} {b : Chunk} {rest : List Chunk} (htodo : k.todo = b :: rest) :
    k.piece Chunk.bytes (fun b => b.start c) =
      List.range' (b.addr + b.start c k.part) (b.start c (k.part + 1) - b.start c k.part) := by
  have hle : b.start c (k.part + 1) ≤ b.len := start_le
  rw [Cursor.piece, htodo]
  dsimp only
  rw [Chunk.bytes, List.drop_range', Nat.mul_one,
    List.take_range'_of_length_ge (by omega)]

theorem map_fst_stretch {D : Type*} (a n : ℕ) (f : ℕ → D) :
    (AxiIncr.stretch a n f).map Prod.fst = List.range' a n := by
  rw [AxiIncr.stretch, List.map_map, List.range'_eq_map_range]
  rfl

theorem mem_stretch {D : Type*} {a n : ℕ} {f : ℕ → D} {e : ℕ × D} :
    e ∈ AxiIncr.stretch a n f ↔ ∃ i < n, e = (a + i, f i) := by
  rw [AxiIncr.stretch, List.mem_map]
  simp only [List.mem_range, eq_comm]

/-! ## The read side -/

/-- How both masks are made. -/
theorem mask_eq {p q : Prop} [Decidable p] [Decidable q] {t : ℕ} {x y : Bool} :
    ((if decide p = true then x else true) &&
      (if t ≠ 0 then if decide q = true then y else true else true)) = true ↔
      (p → x = true) ∧ (q → t ≠ 0 → y = true) := by
  by_cases hp : p <;> by_cases hq : q <;> by_cases ht : t = 0 <;> simp [hp, hq, ht]

/-- The shift of a chunk turns the lanes of its bytes to where they go. -/
theorem turned {b : ReadChunk} {m k : ℕ} (hturn : (b.dst + b.shift) % c.StrbWidth = b.addr % c.StrbWidth)
    (hl : l < c.StrbWidth) (hk : (b.addr + k) % c.StrbWidth = m) :
    (b.dst + k) % c.StrbWidth = l ↔ (l + b.shift) % c.StrbWidth = m := by
  have haddr : (b.dst + k + b.shift) % c.StrbWidth = m := by
    rw [Nat.add_right_comm, ← hk]
    exact Nat.ModEq.add_right k hturn
  rw [← haddr]
  constructor
  · intro h
    rw [← h, Nat.mod_add_mod]
  · intro h
    have := Nat.ModEq.add_right_cancel' b.shift h
    rw [Nat.ModEq, Nat.mod_eq_of_lt hl] at this
    exact this.symm

/-- **A read beat puts its piece on the lanes.** -/
theorem read_beat {s : DataPath.State} {i : DataPath.Input} {k : Cursor ReadChunk} {b : ReadChunk}
    {rest : List ReadChunk} {mem : ℕ → Byte} (htodo : k.todo = b :: rest) (hfits : b.Fits c)
    (hpart : k.part ≤ b.beats c)
    (hturn : (b.dst + b.shift) % c.StrbWidth = b.addr % c.StrbWidth) (hdesc : i.r_desc = b.r c)
    (hfirst : s.is_first_r = decide (k.part = 0)) (hlast : i.r_last_i = decide (k.part = b.beats c))
    (hdata : (b.incr c).Carries c.OffsetWidth k.part mem i.r_data_i) (hl : l < c.StrbWidth) :
    lane c.StrbWidth (k.piece (ReadChunk.pairs mem) fun b => b.start c) l =
      if DataPath.in_mask c s i l then [DataPath.buffer_in c i l] else [] := by
  have hm : (l + b.shift) % c.StrbWidth < c.StrbWidth := Nat.mod_lt _ c.strb_pos
  have hmask : DataPath.in_mask c s i l = true ↔ b.Selects c k.part ((l + b.shift) % c.StrbWidth) := by
    rw [selects_iff hfits hpart hm, ← mask_eq, DataPath.in_mask, DataPath.read_aligned_in_mask, hdesc,
      hfirst, hlast]
    rfl
  rw [read_piece mem htodo]
  by_cases hsel : b.Selects c k.part ((l + b.shift) % c.StrbWidth)
  · obtain ⟨x, hlo, hhi, hx⟩ := mem_of_selects hm hsel
    have hxmod := addr_mod hm hx
    have hxaddr := addr_eq hx
    rw [if_pos (hmask.mpr hsel)]
    refine lane_of_mem (a := b.dst + x) ?_ ?_ ((turned hturn hl hxmod).mpr rfl)
    · rw [map_fst_stretch]
      refine apart_range' ?_
      have hle : b.start c (k.part + 1) ≤ b.start c k.part + c.StrbWidth := start_succ_le
      omega
    · have hbyte : DataPath.buffer_in c i l = mem (b.addr + x) := by
        rw [DataPath.buffer_in, hdesc]
        change i.r_data_i ((l + b.shift) % c.StrbWidth) = _
        rw [← hxmod]
        refine hdata _ (List.mem_range'_1.mpr ⟨?_, ?_⟩)
        · rw [b.beat_addr, hxaddr]
          exact Nat.le_add_right _ _
        · have hlt : (b.incr c).beat_addr k.part < (b.incr c).beat_stop k.part :=
            AxiIncr.Burst.beat_addr_lt
          have hstop : (b.incr c).beat_stop k.part =
              b.addr / c.StrbWidth * c.StrbWidth + k.part * c.StrbWidth + c.StrbWidth := by
            rw [AxiIncr.Burst.beat_stop, b.incr_aligned, Nat.succ_mul, ← Nat.add_assoc]
            rfl
          rw [Nat.add_sub_cancel' hlt.le, hstop, hxaddr]
          omega
      rw [hbyte]
      refine mem_stretch.mpr ⟨x - b.start c k.part, by omega, ?_⟩
      have hx' : b.start c k.part + (x - b.start c k.part) = x := by omega
      rw [Nat.add_assoc, hx']
  · rw [if_neg (hmask.not.mpr hsel), lane_eq_nil_iff]
    intro e he hlane
    obtain ⟨x, hx, rfl⟩ := mem_stretch.mp he
    obtain ⟨m, hm', hselm, hxm⟩ := selects_of_mem (c := c) (b := b.toChunk) (j := k.part)
      (Nat.le_add_right (b.start c k.part) x) (by omega)
    rw [Nat.add_assoc] at hlane
    have := (turned hturn hl (addr_mod hm' hxm)).mp hlane
    exact hsel (this ▸ hselm)

/-! ## The write side -/

section Write

variable {s : DataPath.State} {i : DataPath.Input} {k : Cursor Chunk} {rest : List Chunk}
variable {q : List (ℕ × Byte)}

/-- The counter of the data path stands at beat `j` of the chunk. -/
structure Counting (c : Cfg) (s : DataPath.State) (b : Chunk) (j : ℕ) : Prop where
  le : j ≤ b.beats c
  valid : s.w_cnt_valid_q = decide (j ≠ 0)
  beats : j ≠ 0 → s.w_num_beats_q + j = b.beats c + 1

theorem is_last_w_eq (hdesc : i.w_desc = b.w c) (h : Counting c s b j) :
    DataPath.is_last_w s i = decide (j = b.beats c) := by
  have hle := h.le
  rw [DataPath.is_last_w, hdesc, h.valid, Chunk.w]
  by_cases hb : b.beats c = 0
  · have hj : j = 0 := by omega
    simp [hb, hj]
  · simp only [hb, decide_false, Bool.false_eq_true, if_false]
    by_cases hj : j = 0
    · simp [hj, Ne.symm hb]
    · have hnum := h.beats hj
      simp only [hj, ne_eq, not_false_eq_true, decide_true, Bool.true_and]
      rw [Bool.eq_iff_iff, beq_iff_eq, decide_eq_true_iff]
      omega

/-- The bytes of a beat that can be written are there. -/
theorem available_iff {mask : ℕ → Bool} : DataPath.available c s mask = true ↔
    (∀ l < c.StrbWidth, mask l = true → DataPath.buffer_empty s l = false) ∧
      DataPath.buffer_clean c s = false := by
  rw [DataPath.available, Bool.and_eq_true, decide_eq_true_iff, Bool.not_eq_true']

/-- The first beat waits for its own bytes only, but never goes without them. -/
theorem is_first_w_eq (hdesc : i.w_desc = b.w c) (h : Counting c s b j)
    (hready : DataPath.ready_to_write c s i = true) : DataPath.is_first_w c s i = decide (j = 0) := by
  have hlast := is_last_w_eq hdesc h
  have hle := h.le
  have hvalid := h.valid
  rw [DataPath.is_first_w, hdesc, hvalid, Chunk.w]
  by_cases hb : b.beats c = 0
  · have hj : j = 0 := by omega
    simp [hb, hj]
  · simp only [hb, decide_false, Bool.false_eq_true, if_false]
    by_cases hj : j = 0
    · subst hj
      -- if it were not possible, the mask would ask for all lanes
      by_contra hno
      have hfirst : DataPath.is_first_w c s i = false := by
        rw [DataPath.is_first_w, hdesc, hvalid, Chunk.w]
        simpa [hb] using hno
      have hall : ∀ l, DataPath.out_mask c s i l = true := by
        intro l
        rw [DataPath.out_mask, hfirst, hlast]
        simp [Ne.symm hb]
      obtain ⟨havail, hclean⟩ := available_iff.mp hready
      have hposs : DataPath.first_possible c s i = true :=
        available_iff.mpr ⟨fun l hl _ => havail l hl (hall l), hclean⟩
      simp [hposs] at hno
    · simp [hj]

/-- **The mask of a beat that can be written is the one of its chunk.** -/
theorem out_mask_iff (hfits : b.Fits c) (hdesc : i.w_desc = b.w c) (h : Counting c s b j)
    (hready : DataPath.ready_to_write c s i = true) (hl : l < c.StrbWidth) :
    DataPath.out_mask c s i l = true ↔ b.Selects c j l := by
  rw [selects_iff hfits h.le hl, ← mask_eq, DataPath.out_mask, is_first_w_eq hdesc h hready,
    is_last_w_eq hdesc h, hdesc]
  rfl

/-- The lanes of a beat are in a row. -/
theorem selects_row (h : b.Fits c) (hj : j ≤ b.beats c) (hl : l < c.StrbWidth) :
    b.Selects c j l ↔ b.offset c + b.start c j - j * c.StrbWidth ≤ l ∧
      l < b.offset c + b.start c j - j * c.StrbWidth + (b.start c (j + 1) - b.start c j) := by
  have hlt : j * c.StrbWidth < b.len + b.offset c :=
    lt_of_le_of_lt (Nat.mul_le_mul_right _ hj) (beats_lt _ h.pos)
  have hoff := b.offset_lt (c := c)
  rw [Chunk.Selects, Chunk.start, Chunk.start, start, start, Nat.succ_mul]
  rcases Nat.eq_zero_or_pos j with rfl | hpos
  · omega
  · have := Nat.le_mul_of_pos_left c.StrbWidth hpos
    omega

/-- The addresses of beat `j`. -/
def Chunk.piece (c : Cfg) (b : Chunk) (j : ℕ) : List ℕ :=
  List.range' (b.addr + b.start c j) (b.start c (j + 1) - b.start c j)

/-- Each address of a beat is on a lane of the beat, which is the one that it ends in. -/
theorem piece_lane {a : ℕ} (ha : a ∈ b.piece c j) :
    a % c.StrbWidth < c.StrbWidth ∧ b.Selects c j (a % c.StrbWidth) := by
  obtain ⟨hlo, hhi⟩ := List.mem_range'_1.mp ha
  obtain ⟨x, rfl⟩ := Nat.exists_eq_add_of_le (Nat.le_of_add_right_le hlo)
  obtain ⟨l, hl, hsel, hx⟩ := selects_of_mem (c := c) (b := b) (j := j) (k := x) (by omega) (by omega)
  rw [addr_mod hl hx]
  exact ⟨hl, hsel⟩

theorem mem_piece {x : ℕ} (hlo : b.start c j ≤ x) (hhi : x < b.start c (j + 1)) :
    b.addr + x ∈ b.piece c j := by
  rw [Chunk.piece, List.mem_range'_1]
  omega

/-- No two of them are on one lane. -/
theorem piece_apart (c : Cfg) (b : Chunk) (j : ℕ) : Apart c.StrbWidth (b.piece c j) := by
  have hle : b.start c (j + 1) ≤ b.start c j + c.StrbWidth := start_succ_le
  exact apart_range' (by omega)

/-- Where a beat is on the bus: it fits into one line of lanes. -/
theorem piece_line (hfits : b.Fits c) (hj : j ≤ b.beats c) :
    j * c.StrbWidth ≤ b.offset c + b.start c j ∧
      b.offset c + b.start c j + (b.start c (j + 1) - b.start c j) ≤ j * c.StrbWidth + c.StrbWidth := by
  have hlt : b.start c j < b.start c (j + 1) := start_lt c.strb_pos hfits.pos b.offset_lt hj
  obtain ⟨-, hlo, -⟩ := mem_beat_iff.mp ⟨le_rfl, hlt⟩
  obtain ⟨-, -, hhi⟩ := mem_beat_iff.mp
    (⟨by omega, Nat.sub_one_lt_of_lt hlt⟩ : b.start c j ≤ b.start c (j + 1) - 1 ∧
      b.start c (j + 1) - 1 < b.start c (j + 1))
  exact ⟨hlo, by omega⟩

/-- The data path is about to write the next beat of its first chunk. Its buffers hold the
queue `q`, lane by lane, and what `q` and the reads to come bring is what the chunks ask
for. -/
structure Writing (c : Cfg) (s : DataPath.State) (i : DataPath.Input) (k : Cursor Chunk) (b : Chunk)
    (rest : List Chunk) (q : List (ℕ × Byte)) (addrs more : List ℕ) : Prop where
  todo : k.todo = b :: rest
  fits : b.Fits c
  desc : i.w_desc = b.w c
  count : Counting c s b k.part
  inv : ∀ l < c.StrbWidth, FifoV3.Inv c.BufferDepth (s.fifo_buffer l)
  buffer : ∀ l < c.StrbWidth, FifoV3.elems c.BufferDepth (s.fifo_buffer l) = lane c.StrbWidth q l
  next : q.map Prod.fst ++ addrs = k.rest Chunk.bytes (fun b => b.start c) ++ more
  ready : DataPath.ready_to_write c s i = true

section Writing

variable {addrs more : List ℕ}

/-- How many bytes the beat has. -/
def width (c : Cfg) (k : Cursor Chunk) (b : Chunk) : ℕ := b.start c (k.part + 1) - b.start c k.part

theorem Writing.mask (h : Writing c s i k b rest q addrs more) (hl : l < c.StrbWidth) :
    DataPath.out_mask c s i l = true ↔ b.Selects c k.part l :=
  out_mask_iff h.fits h.desc h.count h.ready hl

/-- Since every lane of the beat has a byte, the front of the queue is the beat. -/
theorem Writing.front (h : Writing c s i k b rest q addrs more) :
    (q.take (width c k b)).map Prod.fst = b.piece c k.part := by
  have htake : (k.rest Chunk.bytes (fun b => b.start c) ++ more).take (width c k b) =
      b.piece c k.part := by
    rw [Cursor.rest_next (write_cuts c) h.todo, write_piece h.todo, List.append_assoc, List.take_left']
    · rfl
    · exact List.length_range'
  rw [← htake]
  refine front_of_lanes h.next ?_ (htake ▸ piece_apart c b k.part) fun a ha => ?_
  · have := congrArg List.length htake
    rw [List.length_take, Chunk.piece, List.length_range'] at this
    rw [width] at this ⊢
    omega
  · rw [htake] at ha
    obtain ⟨hl, hsel⟩ := piece_lane ha
    have hne := (available_iff.mp h.ready).1 _ hl ((h.mask hl).mpr hsel)
    rw [DataPath.buffer_empty, Bool.eq_false_iff, Ne, @FifoV3.empty_o_iff _ c.BufferDepth _,
      h.buffer _ hl] at hne
    exact hne

/-- The front takes the head of each buffer that the mask selects. -/
theorem Writing.lane_front (h : Writing c s i k b rest q addrs more) (hl : l < c.StrbWidth) :
    lane c.StrbWidth (q.take (width c k b)) l =
      if DataPath.out_mask c s i l then [FifoV3.data_o (s.fifo_buffer l)] else [] := by
  have hfront := h.front
  have hapart := piece_apart c b k.part
  by_cases hsel : b.Selects c k.part l
  · obtain ⟨x, hlo, hhi, hx⟩ := mem_of_selects hl hsel
    obtain ⟨⟨a, v⟩, he, ha⟩ := List.mem_map.mp (hfront ▸ mem_piece hlo hhi)
    have hone := lane_of_mem (W := c.StrbWidth) (hfront ▸ hapart) he
      ((congrArg (· % c.StrbWidth) ha).trans (addr_mod hl hx))
    have hhead : FifoV3.data_o (s.fifo_buffer l) = v := by
      refine (h.inv l hl).data_o_eq ?_
      rw [h.buffer l hl, ← List.take_append_drop (width c k b) q, lane_append, hone]
      rfl
    rw [if_pos ((h.mask hl).mpr hsel), hone, hhead]
  · rw [if_neg ((h.mask hl).not.mpr hsel), lane_eq_nil_iff]
    intro e he hlane
    have hmem : e.1 ∈ b.piece c k.part := hfront ▸ List.mem_map_of_mem he
    exact hsel (hlane ▸ (piece_lane hmem).2)

/-- The data of the beat have each byte of the front on the lane of its address. -/
theorem Writing.data_front (h : Writing c s i k b rest q addrs more) :
    q.take (width c k b) = (b.piece c k.part).map fun a =>
      (a, (DataPath.w_beat c s i).data (a % c.StrbWidth)) := by
  have hfront := h.front
  rw [← hfront, List.map_map]
  refine (List.map_id _).symm.trans (List.map_congr_left fun e he => ?_)
  obtain ⟨hl, hsel⟩ := piece_lane (hfront ▸ List.mem_map_of_mem he : e.1 ∈ b.piece c k.part)
  have hone := lane_of_mem (W := c.StrbWidth) (hfront ▸ piece_apart c b k.part) he rfl
  rw [h.lane_front hl, if_pos ((h.mask hl).mpr hsel), List.singleton_inj] at hone
  refine Prod.ext rfl ?_
  change e.2 = (if DataPath.out_mask c s i (e.1 % c.StrbWidth) then _ else _)
  rw [if_pos ((h.mask hl).mpr hsel), hone]

/-- A slave writes the front of the queue. -/
theorem Writing.beat_written (h : Writing c s i k b rest q addrs more) :
    (b.incr c).beat_written c.OffsetWidth k.part (DataPath.w_beat c s i) = q.take (width c k b) := by
  have hstrb : ∀ l < 2 ^ c.OffsetWidth, (DataPath.w_beat c s i).strb l = true ↔
      b.offset c + b.start c k.part - k.part * c.StrbWidth ≤ l ∧
        l < b.offset c + b.start c k.part - k.part * c.StrbWidth + width c k b := by
    intro l hl
    rw [width, ← selects_row h.fits h.count.le hl]
    exact h.mask hl
  obtain ⟨hlo, hhi⟩ := piece_line h.fits h.count.le
  rw [← width] at hhi
  obtain ⟨o, ho⟩ : ∃ o, b.offset c + b.start c k.part = k.part * c.StrbWidth + o :=
    Nat.exists_eq_add_of_le hlo
  rw [ho, Nat.add_sub_cancel_left] at hstrb
  have hW : c.StrbWidth = 2 ^ c.OffsetWidth := rfl
  rw [AxiIncr.Burst.beat_written_eq hstrb (by omega) fun _ _ => rfl, b.lane_addr, ← addr_eq ho,
    h.data_front, AxiIncr.stretch, Chunk.piece, ← width, List.range'_eq_map_range, List.map_map]
  apply List.map_congr_left
  intro x hx
  have hx' := List.mem_range.mp hx
  rw [Function.comp_apply, Nat.add_assoc, addr_mod (j := k.part) (l := o + x) (by omega) (by omega)]

/-- **A write beat takes its piece off the lanes.** -/
theorem Writing.write_beat (h : Writing c s i k b rest q addrs more) :
    ∃ q₁ q₂, q = q₁ ++ q₂ ∧ q₁.map Prod.fst = k.piece Chunk.bytes (fun b => b.start c) ∧
      (b.incr c).beat_written c.OffsetWidth k.part (DataPath.w_beat c s i) = q₁ ∧
      ∀ l < c.StrbWidth, lane c.StrbWidth q₁ l =
        if DataPath.out_mask c s i l then [FifoV3.data_o (s.fifo_buffer l)] else [] :=
  ⟨q.take (width c k b), q.drop (width c k b), (List.take_append_drop _ q).symm,
    h.front.trans (write_piece h.todo).symm, h.beat_written, fun _ hl => h.lane_front hl⟩

end Writing

end Write

end Pspin.AxiDma
