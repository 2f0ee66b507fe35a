/-
The stack of the datatype interpreter: what it holds between two trips round the loop.

Every element on the stack is somewhere in its two loops; `Stackelm.left` is what it still
has to give and `leftFrom` puts the elements together, innermost first. An element above
the stack pointer is used again without being reloaded, as long as there is no struct on
the way down to it (`spine`), so it has to be left as it was loaded.

One element at a time: what starting it, finishing a block of it and pushing a new one do
to what is left.
-/
import Mathlib.Tactic.Ring
import Pspin.DatatypeMap

set_option autoImplicit false

open Function (update)
open NestedLoop Fit

namespace Pspin.Datatypes

variable {d d₀ : Dataloop} {e e' : Stackelm} {w w' : Work} {p : LoopParams} {base : Offset}

/-! ## One element -/

/-- The block in which the element stands. -/
def Stackelm.index (e : Stackelm) : ℕ := e.orig_count - e.curcount

/-- The elements of the block that are done. -/
def Stackelm.done (e : Stackelm) : ℕ := e.loop_p.blocksize e.index - e.curblock

/-- What the loop of `e` still gives. -/
def Stackelm.left (e : Stackelm) : List Item :=
  rest e.loop_p.count e.loop_p.blocksize (e.loop_p.element e.orig_offset) e.index e.done

/-- The blocks of an indexed loop have sizes of their own. -/
def LoopParams.isIndexed : LoopParams → Bool
  | .i_t .. => true
  | _ => false

/-- The loops whose `orig_block` is kept: at an indexed leaf nothing reads it. -/
def Dataloop.keepsBlock : Dataloop → Bool
  | .final p _ _ => !p.isIndexed
  | _ => true

/-- An element on the stack. -/
structure Active (e : Stackelm) : Prop where
  wf : e.loop_p.WellFormed
  count : e.orig_count = e.loop_p.count
  curcount_pos : 0 < e.curcount
  curcount_le : e.curcount ≤ e.orig_count
  curblock_le : e.curblock ≤ e.loop_p.blocksize e.index
  block : e.loop_p.keepsBlock = true → e.orig_block = e.loop_p.blocksize e.index
  contig : ∀ n s x c, e.loop_p = .branch (.c_t n) s x c → e.curoffset = e.orig_offset
  final : e.loop_p.isFinal = true → 0 < e.curblock ∧ e.curoffset =
    e.orig_offset + e.loop_p.place e.index + BitVec.ofNat 64 (e.done * e.loop_p.el_size)

/-- An active element stands in one of the blocks. -/
theorem Active.index_lt (h : Active e) : e.index < e.loop_p.count := by
  have := h.curcount_pos
  have := h.curcount_le
  rw [← h.count, Stackelm.index]
  omega

/-- The same loop at the same place: what a step leaves alone. -/
structure SameLoop (e e' : Stackelm) : Prop where
  loop_p : e'.loop_p = e.loop_p
  orig_count : e'.orig_count = e.orig_count
  orig_offset : e'.orig_offset = e.orig_offset
  reload : e'.may_require_reloading = e.may_require_reloading

/-- The elements of a leaf are next to each other. -/
theorem final_elements (A : Offset) (el k m : ℕ) :
    total Item.size (elements (fun b => [(⟨A + BitVec.ofNat 64 (b * el), el⟩ : Item)]) k m) = m * el ∧
    addresses (elements (fun b => [(⟨A + BitVec.ofNat 64 (b * el), el⟩ : Item)]) k m) =
      (List.range' 0 (m * el)).map fun j => A + BitVec.ofNat 64 (k * el) + BitVec.ofNat 64 j := by
  induction m generalizing k with
  | zero => simp [elements]
  | succ m ih =>
      obtain ⟨ht, ha⟩ := ih (k + 1)
      rw [Nat.add_comm m 1, elements_add, elements_one]
      constructor
      · rw [total_append, ht, total_cons, total_nil]
        ring
      · have hmul : (1 + m) * el = el + m * el := by ring
        rw [addresses_append, ha, hmul, ← List.range'_append_1, List.map_append]
        congr 1
        · simp [addresses]
        · rw [Nat.zero_add, List.range'_eq_map_range (s := 0), List.range'_eq_map_range (s := el),
            List.map_map, List.map_map]
          refine List.map_congr_left fun j _ => ?_
          simp only [Function.comp_apply, BitVec.ofNat_add, Nat.add_mul, Nat.one_mul, Nat.zero_add]
          ring

/-! ## Starting an element -/

/-- The first block begins at the loop's first offset. -/
theorem LoopParams.place_zero (p : LoopParams) : p.place 0 = p.offset 0 := by
  cases p with
  | v_t => simp [LoopParams.place, LoopParams.offset]
  | c_t => rfl
  | bi_t => rfl
  | i_t => rfl

theorem Dataloop.place_zero (d : Dataloop) : d.place 0 = d.offset 0 := by
  cases d with
  | final p => exact p.place_zero
  | branch p => exact p.place_zero
  | struct => rfl

/-- What starting an element sets: the counts of the first block, and its offset. -/
theorem start_fields (e : Stackelm) (hb : e.loop_p.keepsBlock = true → e.orig_block = e.loop_p.blocksize 0) :
    SameLoop e e.start ∧ e.start.curcount = e.orig_count ∧
      e.start.curblock = e.loop_p.blocksize 0 ∧
      e.start.curoffset = e.orig_offset + e.loop_p.offset 0 ∧ e.start.orig_block = e.orig_block := by
  obtain ⟨mrr, cc, co, cb, oc, oo, ob, dl⟩ := e
  have hzero : oo = oo + 0 := (add_zero oo).symm
  cases dl with
  | final p =>
      cases p with
      | c_t n => exact ⟨⟨rfl, rfl, rfl, rfl⟩, rfl, hb rfl, hzero, rfl⟩
      | v_t n b s => exact ⟨⟨rfl, rfl, rfl, rfl⟩, rfl, hb rfl, hzero, rfl⟩
      | bi_t n b o => exact ⟨⟨rfl, rfl, rfl, rfl⟩, rfl, hb rfl, rfl, rfl⟩
      | i_t n b o t => exact ⟨⟨rfl, rfl, rfl, rfl⟩, rfl, rfl, rfl, rfl⟩
  | branch p =>
      cases p with
      | c_t n => exact ⟨⟨rfl, rfl, rfl, rfl⟩, rfl, hb rfl, hzero, rfl⟩
      | v_t n b s => exact ⟨⟨rfl, rfl, rfl, rfl⟩, rfl, hb rfl, hzero, rfl⟩
      | bi_t n b o => exact ⟨⟨rfl, rfl, rfl, rfl⟩, rfl, hb rfl, rfl, rfl⟩
      | i_t n b o t => exact ⟨⟨rfl, rfl, rfl, rfl⟩, rfl, rfl, rfl, rfl⟩
  | struct => exact ⟨⟨rfl, rfl, rfl, rfl⟩, rfl, rfl, rfl, rfl⟩

/-- `e` is at the start of its first block. -/
structure Started (e : Stackelm) : Prop where
  wf : e.loop_p.WellFormed
  count : e.orig_count = e.loop_p.count
  curcount : e.curcount = e.orig_count
  curblock : e.curblock = e.loop_p.blocksize 0
  curoffset : e.curoffset = e.orig_offset + e.loop_p.offset 0
  block : e.loop_p.keepsBlock = true → e.orig_block = e.loop_p.blocksize 0

theorem Started.index (h : Started e) : e.index = 0 := by
  rw [Stackelm.index, h.curcount, Nat.sub_self]

theorem Started.done (h : Started e) : e.done = 0 := by
  rw [Stackelm.done, h.index, h.curblock, Nat.sub_self]

theorem Started.active (h : Started e) : Active e where
  wf := h.wf
  count := h.count
  curcount_pos := by
    rw [h.curcount, h.count]
    exact h.wf.sized.count_pos
  curcount_le := h.curcount.le
  curblock_le := by rw [h.index, h.curblock]
  block hk := by rw [h.index, h.block hk]
  contig n s x c hd := by
    rw [h.curoffset, hd]
    exact add_zero _
  final _ := by
    refine ⟨?_, ?_⟩
    · rw [h.curblock]
      exact h.wf.sized.block_pos 0 h.wf.sized.count_pos
    · rw [h.curoffset, h.index, h.done, Dataloop.place_zero]
      simp

theorem Started.left (h : Started e) : e.left = e.loop_p.typemap e.orig_offset := by
  rw [Stackelm.left, h.index, h.done, rest_start h.wf.sized.count_pos, Dataloop.typemap_eq]

/-- An element that is unwound starts as the loop says. -/
theorem started_start (hwf : e.loop_p.WellFormed) (hc : e.orig_count = e.loop_p.count)
    (hb : e.loop_p.keepsBlock = true → e.orig_block = e.loop_p.blocksize 0) :
    Started e.start ∧ SameLoop e e.start := by
  obtain ⟨hsame, hcount, hblock, hoff, horig⟩ := start_fields e hb
  have hl := hsame.loop_p
  have ho := hsame.orig_count
  have hoo := hsame.orig_offset
  refine ⟨⟨?_, ?_, ?_, ?_, ?_, ?_⟩, hsame⟩
  · rwa [hl]
  · rw [ho, hl, hc]
  · rw [hcount, ho]
  · rw [hblock, hl]
  · rw [hoff, hoo, hl]
  · rw [hl, horig]
    exact hb

/-! ## The next block -/

/-- `e'` is `e` at the start of the block after the one that `e` is in. -/
structure NextBlock (e e' : Stackelm) : Prop extends SameLoop e e' where
  curcount : e'.curcount + 1 = e.curcount
  curblock : e'.curblock = e.loop_p.blocksize (e.index + 1)
  block : e.loop_p.keepsBlock = true → e'.orig_block = e.loop_p.blocksize (e.index + 1)
  final : e.loop_p.isFinal = true → e'.curoffset = e.orig_offset + e.loop_p.place (e.index + 1)

theorem NextBlock.index (hn : NextBlock e e') (h : Active e) : e'.index = e.index + 1 := by
  have := hn.curcount
  have := h.curcount_le
  rw [Stackelm.index, hn.orig_count, Stackelm.index]
  omega

theorem NextBlock.done (hn : NextBlock e e') (h : Active e) : e'.done = 0 := by
  rw [Stackelm.done, hn.loop_p, hn.index h, hn.curblock, Nat.sub_self]

/-- A contig has no next block. -/
theorem NextBlock.active (hn : NextBlock e e') (h : Active e) (hlt : e.index + 1 < e.loop_p.count) :
    Active e' where
  wf := hn.loop_p ▸ h.wf
  count := by rw [hn.orig_count, hn.loop_p, h.count]
  curcount_pos := by
    have := hn.curcount
    have := h.curcount_le
    have := h.count
    rw [Stackelm.index] at hlt
    omega
  curcount_le := by
    have := hn.curcount
    have := h.curcount_le
    rw [hn.orig_count]
    omega
  curblock_le := by rw [hn.index h, hn.loop_p, hn.curblock]
  block hk := by
    rw [hn.loop_p] at hk
    rw [hn.index h, hn.loop_p, hn.block hk]
  -- a contiguous loop has one block, so there is no next one
  contig n s x c hd := by
    rw [hn.loop_p] at hd
    rw [hd] at hlt
    exact absurd hlt (by simp [Dataloop.count, LoopParams.count])
  final hf := by
    rw [hn.loop_p] at hf
    refine ⟨?_, ?_⟩
    · rw [hn.curblock]
      exact h.wf.sized.block_pos _ hlt
    · rw [hn.final hf, hn.index h, hn.done h, hn.orig_offset, hn.loop_p]
      simp

theorem NextBlock.left (hn : NextBlock e e') (h : Active e) : e'.left =
    rest e.loop_p.count e.loop_p.blocksize (e.loop_p.element e.orig_offset) (e.index + 1) 0 := by
  rw [Stackelm.left, hn.index h, hn.done h, hn.loop_p, hn.orig_offset]

/-! ## Blocks that are done -/

/-- What a pop leaves above the stack pointer, ready to be started again. -/
structure Unwound (e e' : Stackelm) : Prop extends SameLoop e e' where
  block : e.loop_p.keepsBlock = true → e'.orig_block = e.loop_p.blocksize 0

/-- The block is done: the element goes to its next one, or off the stack. -/
def BlockDone (w : Work) (t : Trip) : Prop :=
  (w.elm.index + 1 < w.elm.loop_p.count ∧ ∃ e', t = .again (w.set e') ∧ NextBlock w.elm e') ∨
  (w.elm.loop_p.count ≤ w.elm.index + 1 ∧ ∃ e', t = pop (w.set e') ∧ Unwound w.elm e')

/-- Going over whole blocks when there is exactly one. -/
theorem takeBlocks_one (blocksize : ℕ → ℕ) (orig_count curcount : ℕ) {n : ℕ} (hn : 0 < n) :
    takeBlocks blocksize orig_count n n curcount n =
      (0, curcount - 1, blocksize (orig_count - (curcount - 1))) := by
  obtain ⟨m, rfl⟩ : ∃ m, n = m + 1 := ⟨n - 1, by omega⟩
  rw [takeBlocks, if_pos ⟨hn, le_rfl⟩, Nat.sub_self]
  cases m with
  | zero => rfl
  | succ m => rw [takeBlocks, if_neg (by omega)]

theorem Work.set_elm (w : Work) : w.set w.elm = w := by
  rw [Work.set, Work.elm, Function.update_eq_self]

/-- Counting down the blocks counts up the index. -/
theorem Active.next_index (h : Active e) : e.orig_count - (e.curcount - 1) = e.index + 1 := by
  have := h.curcount_pos
  have := h.curcount_le
  rw [Stackelm.index]
  omega

/-- The last block is the one where the count would become 0. -/
theorem Active.curcount_one_iff (h : Active e) : e.curcount - 1 = 0 ↔ e.loop_p.count ≤ e.index + 1 := by
  have := h.curcount_pos
  have := h.curcount_le
  rw [← h.count, Stackelm.index]
  omega

theorem Active.curcount_sub (h : Active e) : e.curcount - 1 + 1 = e.curcount := by
  have := h.curcount_pos
  omega

/-- At a leaf, with exactly the rest of the block done. -/
theorem finishBlocks_spec (h : Active w.elm) (hf : w.elm.loop_p.isFinal = true) :
    BlockDone w (finishBlocks w w.elm.curblock) := by
  have hpos := (h.final hf).1
  have hone := h.curcount_one_iff
  have hnext := h.next_index
  have hsub := h.curcount_sub
  have hblock := h.block
  rw [BlockDone]
  cases hd : w.elm.loop_p with
  | branch => rw [hd] at hf; exact absurd hf (by simp [Dataloop.isFinal])
  | struct => rw [hd] at hf; exact absurd hf (by simp [Dataloop.isFinal])
  -- the kinds of a final loop; a whole block has been taken
  | final p el ext =>
      cases p with
      -- contiguous, one block, so the loop is over
      | c_t n =>
          rw [hd] at hblock
          refine Or.inr ⟨Nat.le_add_left 1 _, w.elm, ?_, ⟨rfl, rfl, rfl, rfl⟩, fun _ => ?_⟩
          · simp only [finishBlocks, hd, Work.set_elm]
          · rw [hd, hblock rfl]
            rfl
      -- a vector: the last block, or the next one, which has the same size
      | v_t n b s =>
          rw [hd] at hblock hone
          have hob : w.elm.orig_block = b := hblock rfl
          simp only [finishBlocks, hd, Nat.div_self hpos, Nat.mod_self, Nat.sub_zero, Nat.sub_self,
            Nat.zero_mul, hnext]
          split_ifs with hc
          · refine Or.inr ⟨hone.mp hc, _, rfl, ⟨hd.symm, rfl, rfl, rfl⟩, fun _ => ?_⟩
            rw [hd]
            exact hob
          · refine Or.inl ⟨not_le.mp (mt hone.mpr hc), _, rfl, ⟨hd.symm, rfl, rfl, rfl⟩, hsub, ?_, ?_, ?_⟩
            · rw [hd]
              exact hob
            · rw [hd]
              exact fun _ => hob
            · rw [hd]
              exact fun _ => BitVec.add_zero _
      | bi_t n b o =>
          rw [hd] at hblock hone
          have hob : w.elm.orig_block = b := hblock rfl
          simp only [finishBlocks, hd, takeBlocks_one _ _ _ hpos, Nat.sub_zero, Nat.zero_mul, hnext]
          split_ifs with hc
          · refine Or.inr ⟨hone.mp hc, _, rfl, ⟨hd.symm, rfl, rfl, rfl⟩, fun _ => ?_⟩
            rw [hd]
            exact hob
          · refine Or.inl ⟨not_le.mp (mt hone.mpr hc), _, rfl, ⟨hd.symm, rfl, rfl, rfl⟩, hsub, ?_, ?_, ?_⟩
            · rw [hd]
              exact hob
            · rw [hd]
              exact fun _ => hob
            · rw [hd]
              exact fun _ => BitVec.add_zero _
      -- an indexed loop: the next block has a size of its own
      | i_t n b o t =>
          rw [hd] at hone
          simp only [finishBlocks, hd, takeBlocks_one _ _ _ hpos, Nat.sub_zero, Nat.zero_mul, hnext]
          split_ifs with hc
          · refine Or.inr ⟨hone.mp hc, _, rfl, ⟨hd.symm, rfl, rfl, rfl⟩, fun hk => ?_⟩
            rw [hd] at hk
            exact absurd hk (by simp [Dataloop.keepsBlock, LoopParams.isIndexed])
          · refine Or.inl ⟨not_le.mp (mt hone.mpr hc), _, rfl, ⟨hd.symm, rfl, rfl, rfl⟩, hsub, ?_, ?_, ?_⟩
            · rw [hd]
              rfl
            · rw [hd]
              exact fun _ => rfl
            · rw [hd]
              exact fun _ => BitVec.add_zero _

/-- The block size that is stored for the next time is that of the block. -/
theorem newOrigBlock_eq (h : Active e) (hf : e.loop_p.isFinal = false) (i : ℕ) :
    e.loop_p.newOrigBlock e.orig_block i = e.loop_p.blocksize i := by
  have hblock := h.block
  cases hd : e.loop_p with
  | final => rw [hd] at hf; exact absurd hf (by simp [Dataloop.isFinal])
  | struct => rfl
  | branch p =>
      rw [hd] at hblock
      cases p with
      | i_t => rfl
      | c_t => exact hblock rfl
      | v_t => exact hblock rfl
      | bi_t => exact hblock rfl

/-- At a loop that is not a leaf, with the block used up. -/
theorem newBlock_spec (h : Active w.elm) (hf : w.elm.loop_p.isFinal = false) :
    BlockDone w (newBlock w) := by
  have hone := h.curcount_one_iff
  have hne : w.elm.loop_p.isFinal ≠ true := by simp [hf]
  simp only [newBlock, newOrigBlock_eq h hf, h.next_index]
  by_cases hc : w.elm.curcount - 1 = 0
  · rw [if_neg (not_not_intro hc), if_pos hc]
    exact Or.inr ⟨hone.mp hc, _, rfl, ⟨rfl, rfl, rfl, rfl⟩, fun _ => rfl⟩
  · rw [if_pos hc, if_neg hc]
    refine Or.inl ⟨not_le.mp (mt hone.mpr hc), _, rfl, ⟨rfl, rfl, rfl, rfl⟩, h.curcount_sub, rfl, ?_, ?_⟩
    · exact fun _ => rfl
    · exact fun hf' => absurd hf' hne

end Pspin.Datatypes
