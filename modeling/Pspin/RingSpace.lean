/-
Blocks of several sizes in a ring buffer.

A ring has a head and a tail. Blocks are put in at the tail, one behind the other, and
leave at the head. A block that does not fit behind the tail goes to the front of the
buffer; the place where the blocks before it end is the cut, and the head that arrives
there goes on from zero. Until then the blocks lie in two runs.

`Holds` says which blocks a ring holds, oldest first. The operations keep it as long as
a block is not empty, never wraps out of an empty ring, and leaves with the size it
came with. Nothing here says when a block may leave.
-/
import Mathlib.Algebra.Order.Ring.Nat
import Mathlib.Data.List.Pairwise
import Mathlib.Tactic.Common

set_option autoImplicit false

namespace RingSpace

structure Block where
  offset : ℕ
  size : ℕ
deriving DecidableEq

namespace Block

def stop (b : Block) : ℕ := b.offset + b.size

/-- No byte of one block is a byte of the other. -/
def Apart (b b' : Block) : Prop := b.stop ≤ b'.offset ∨ b'.stop ≤ b.offset

instance (b b' : Block) : Decidable (Apart b b') := inferInstanceAs (Decidable (_ ∨ _))

theorem Apart.symm {b b' : Block} (h : Apart b b') : Apart b' b := Or.symm h

/-- Blocks with bytes and without a common one begin in different places. -/
theorem Apart.offset_ne {b b' : Block} (h : Apart b b') (hb : 0 < b.size) (hb' : 0 < b'.size) :
    b.offset ≠ b'.offset := by
  unfold Apart stop at h
  omega

end Block

open Block (Apart)

/-! ## Runs of blocks -/

/-- The blocks lie one behind the other from `a` to `c`, and none is empty. -/
def Chain : ℕ → List Block → ℕ → Prop
  | a, [], c => a = c
  | a, b :: l, c => b.offset = a ∧ 0 < b.size ∧ Chain b.stop l c

namespace Chain

variable {a c n : ℕ} {b : Block} {l : List Block}

theorem le (h : Chain a l c) : a ≤ c := by
  induction l generalizing a with
  | nil => exact le_of_eq h
  | cons b l ih =>
      obtain ⟨rfl, -, h⟩ := h
      exact (Nat.le_add_right _ _).trans (ih h)

/-- A run that ends where it begins has no block. -/
theorem eq_nil (h : Chain a l a) : l = [] := by
  cases l with
  | nil => rfl
  | cons b l =>
      obtain ⟨rfl, hpos, h⟩ := h
      have hle := h.le
      unfold Block.stop at hle
      omega

theorem snoc (h : Chain a l c) (hn : 0 < n) : Chain a (l ++ [⟨c, n⟩]) (c + n) := by
  induction l generalizing a with
  | nil =>
      obtain rfl : a = c := h
      exact ⟨rfl, hn, rfl⟩
  | cons b l ih => exact ⟨h.1, h.2.1, ih h.2.2⟩

/-- A block of a run has bytes and stays within its ends. -/
theorem bounds (h : Chain a l c) (hb : b ∈ l) : a ≤ b.offset ∧ 0 < b.size ∧ b.stop ≤ c := by
  induction l generalizing a with
  | nil => exact absurd hb List.not_mem_nil
  | cons d l ih =>
      obtain ⟨rfl, hpos, h⟩ := h
      rcases List.mem_cons.mp hb with rfl | hb
      · exact ⟨le_refl _, hpos, h.le⟩
      · obtain ⟨hlo, hsize, hhi⟩ := ih h hb
        exact ⟨(Nat.le_add_right _ _).trans hlo, hsize, hhi⟩

theorem apart (h : Chain a l c) : l.Pairwise Apart := by
  induction l generalizing a with
  | nil => exact List.Pairwise.nil
  | cons d l ih =>
      obtain ⟨-, -, h⟩ := h
      exact List.pairwise_cons.mpr ⟨fun b hb => Or.inl (h.bounds hb).1, ih h⟩

end Chain

/-! ## The ring -/

structure Ring where
  head : ℕ
  tail : ℕ
  cut : Option ℕ

namespace Ring

/-- A block of `n` bytes behind the tail. -/
def push (r : Ring) (n : ℕ) : Ring := { r with tail := r.tail + n }

/-- A block of `n` bytes at the front of the buffer. -/
def wrap (r : Ring) (n : ℕ) : Ring := ⟨r.head, n, some r.tail⟩

/-- The `n` bytes at the head leave. -/
def pop (r : Ring) (n : ℕ) : Ring :=
  if r.cut = some (r.head + n) then ⟨0, r.tail, none⟩ else { r with head := r.head + n }

end Ring

/-- The blocks that a ring in a buffer of `size` bytes holds, oldest first. -/
inductive Holds (size : ℕ) : Ring → List Block → Prop
  | straight {head tail : ℕ} {blocks : List Block} (h : Chain head blocks tail)
      (hle : tail ≤ size) : Holds size ⟨head, tail, none⟩ blocks
  | wrapped {head tail cut : ℕ} {old new : List Block} (h : Chain head old cut)
      (h' : Chain 0 new tail) (hne : old ≠ []) (hcut : cut ≤ size) (hle : tail ≤ head) :
      Holds size ⟨head, tail, some cut⟩ (old ++ new)

namespace Holds

variable {size n : ℕ} {r : Ring} {b : Block} {blocks : List Block}

/-- A ring without blocks is at one place, and not cut. -/
theorem of_nil (h : Holds size r []) : r.head = r.tail ∧ r.cut = none := by
  generalize hl : ([] : List Block) = l at h
  cases h with
  | straight h =>
      rw [← hl] at h
      exact ⟨h, rfl⟩
  | wrapped h h' hne => exact absurd (List.append_eq_nil_iff.mp hl.symm).1 hne

theorem tail_le (h : Holds size r blocks) : r.tail ≤ size := by
  cases h with
  | straight h hle => exact hle
  | wrapped h h' hne hcut hle => exact hle.trans (h.le.trans hcut)

/-- Which side of the head the tail is on tells whether the ring is cut. -/
theorem cut_eq_none (h : Holds size r blocks) (hlt : r.head < r.tail) : r.cut = none := by
  cases h with
  | straight => rfl
  | wrapped h h' hne hcut hle => exact absurd hlt (Nat.not_lt.mpr hle)

theorem cut_ne_none (h : Holds size r blocks) (hlt : r.tail < r.head) : r.cut ≠ none := by
  cases h with
  | straight h => exact absurd hlt (Nat.not_lt.mpr h.le)
  | wrapped => exact Option.some_ne_none _

/-- The cut is behind the head: the blocks of the old run are in front of it. -/
theorem cut_ne_head (h : Holds size r blocks) : r.cut ≠ some r.head := by
  cases h with
  | straight => exact (Option.some_ne_none _).symm
  | wrapped h h' hne =>
      intro hc
      obtain rfl := Option.some.inj hc
      exact hne h.eq_nil

/-- **The blocks do not overlap.** -/
theorem apart (h : Holds size r blocks) : blocks.Pairwise Apart := by
  cases h with
  | straight h => exact h.apart
  | wrapped h h' hne hcut hle =>
      refine List.pairwise_append.mpr ⟨h.apart, h'.apart, ?_⟩
      -- the new run ends at the tail, the old one begins at the head
      intro b hb b' hb'
      exact Or.inr ((h'.bounds hb').2.2.trans (hle.trans (h.bounds hb).1))

/-- The blocks have bytes, all inside the buffer. -/
theorem bounds (h : Holds size r blocks) (hb : b ∈ blocks) : 0 < b.size ∧ b.stop ≤ size := by
  cases h with
  | straight h hle =>
      obtain ⟨-, hpos, hstop⟩ := h.bounds hb
      exact ⟨hpos, hstop.trans hle⟩
  | wrapped h h' hne hcut hle =>
      rcases List.mem_append.mp hb with hb | hb
      · obtain ⟨-, hpos, hstop⟩ := h.bounds hb
        exact ⟨hpos, hstop.trans hcut⟩
      · obtain ⟨-, hpos, hstop⟩ := h'.bounds hb
        exact ⟨hpos, hstop.trans (hle.trans (h.le.trans hcut))⟩

/-- A block is known by the place where it begins. -/
theorem index_eq (h : Holds size r blocks) {i j : ℕ} {b' : Block} (hi : blocks[i]? = some b)
    (hj : blocks[j]? = some b') (hoff : b.offset = b'.offset) : i = j := by
  obtain ⟨hi', rfl⟩ := List.getElem?_eq_some_iff.mp hi
  obtain ⟨hj', rfl⟩ := List.getElem?_eq_some_iff.mp hj
  have hpair := List.pairwise_iff_getElem.mp h.apart
  have hpos : ∀ (k : ℕ) (hk : k < blocks.length), 0 < blocks[k].size :=
    fun k hk => (h.bounds (List.getElem_mem hk)).1
  rcases Nat.lt_trichotomy i j with hlt | heq | hlt
  · exact absurd hoff ((hpair i j hi' hj' hlt).offset_ne (hpos i hi') (hpos j hj'))
  · exact heq
  · exact absurd hoff.symm ((hpair j i hj' hi' hlt).offset_ne (hpos j hj') (hpos i hi'))

/-! ## The operations -/

theorem push (h : Holds size r blocks) (hn : 0 < n) (hfree : r.cut = none → r.tail + n ≤ size)
    (hcut : r.cut ≠ none → r.tail + n ≤ r.head) :
    Holds size (r.push n) (blocks ++ [⟨r.tail, n⟩]) := by
  cases h with
  | straight h => exact .straight (h.snoc hn) (hfree rfl)
  | wrapped h h' hne hle =>
      rw [List.append_assoc]
      exact .wrapped h (h'.snoc hn) hne hle (hcut (Option.some_ne_none _))

/-- The first block at the front of the buffer: there must be one left to cut behind. -/
theorem wrap (h : Holds size r blocks) (hcut : r.cut = none) (hne : blocks ≠ []) (hn : 0 < n)
    (hle : n ≤ r.head) : Holds size (r.wrap n) (blocks ++ [⟨0, n⟩]) := by
  cases h with
  | straight h hsize => exact .wrapped h ⟨rfl, hn, Nat.zero_add n⟩ hne hsize hle
  | wrapped => exact absurd hcut (Option.some_ne_none _)

/-- The oldest block begins at the head. -/
theorem head_eq (h : Holds size r (b :: blocks)) : b.offset = r.head := by
  generalize hl : b :: blocks = l at h
  cases h with
  | straight h =>
      rw [← hl] at h
      exact h.1
  | @wrapped head tail cut old new h h' hne =>
      obtain ⟨d, old, rfl⟩ := List.exists_cons_of_ne_nil hne
      rw [List.cons_append, List.cons.injEq] at hl
      rw [hl.1]
      exact h.1

/-- **The oldest block leaves.** With its own size the head comes to the next block, or
to the cut, where the old run has no block left. -/
theorem pop (h : Holds size r (b :: blocks)) : Holds size (r.pop b.size) blocks := by
  generalize hl : b :: blocks = l at h
  cases h with
  | straight h hle =>
      rw [← hl] at h
      obtain ⟨rfl, -, h⟩ := h
      exact .straight h hle
  | @wrapped head tail cut old new h h' hne hcut hle =>
      obtain ⟨d, old, rfl⟩ := List.exists_cons_of_ne_nil hne
      rw [List.cons_append, List.cons.injEq] at hl
      obtain ⟨rfl, rfl⟩ := hl
      obtain ⟨rfl, hpos, h⟩ := h
      unfold Ring.pop
      -- at the cut the head goes back to the start, and the ring is straight again
      by_cases hend : some cut = some (b.offset + b.size)
      · rw [if_pos hend]
        obtain rfl := Option.some.inj hend
        rw [h.eq_nil, List.nil_append]
        exact .straight h' (hle.trans ((Nat.le_add_right _ _).trans hcut))
      · rw [if_neg hend]
        refine .wrapped h h' ?_ hcut (hle.trans (Nat.le_add_right _ _))
        rintro rfl
        exact hend (congrArg some h.symm)

end Holds

/-! ## A cut behind no block

A ring that is cut while it holds nothing has its head at the cut already, and no block
leaves that would bring it there. -/

/-- The blocks of a ring that was cut while it was empty. -/
structure Stuck (size : ℕ) (r : Ring) (blocks : List Block) : Prop where
  cut : r.cut = some r.head
  run : Chain 0 blocks r.tail
  ne : blocks ≠ []
  tail_le : r.tail ≤ r.head
  head_le : r.head ≤ size

namespace Stuck

variable {size n : ℕ} {r : Ring} {b : Block} {blocks : List Block}

theorem apart (h : Stuck size r blocks) : blocks.Pairwise Apart := h.run.apart

theorem bounds (h : Stuck size r blocks) (hb : b ∈ blocks) : 0 < b.size ∧ b.stop ≤ size := by
  obtain ⟨-, hpos, hstop⟩ := h.run.bounds hb
  exact ⟨hpos, hstop.trans (h.tail_le.trans h.head_le)⟩

/-- **No block is at the head**, so none leaves. -/
theorem offset_ne (h : Stuck size r blocks) (hb : b ∈ blocks) : b.offset ≠ r.head := by
  obtain ⟨-, hpos, hstop⟩ := h.run.bounds hb
  have hle := h.tail_le
  unfold Block.stop at hstop
  omega

/-- No blocks keep the ring from being stuck. -/
theorem not_holds {blocks' : List Block} (h : Stuck size r blocks) : ¬ Holds size r blocks' :=
  fun hc => hc.cut_ne_head h.cut

theorem push (h : Stuck size r blocks) (hn : 0 < n) (hle : r.tail + n ≤ r.head) :
    Stuck size (r.push n) (blocks ++ [⟨r.tail, n⟩]) :=
  ⟨h.cut, h.run.snoc hn, List.append_ne_nil_of_left_ne_nil h.ne _, hle, h.head_le⟩

/-- The cut that does it. -/
theorem of_wrap (h : Holds size r []) (hn : 0 < n) (hle : n ≤ r.head) :
    Stuck size (r.wrap n) [⟨0, n⟩] := by
  have hptr := h.of_nil.1
  have htail := h.tail_le
  exact ⟨congrArg some hptr.symm, ⟨rfl, hn, Nat.zero_add n⟩, List.cons_ne_nil _ _, hle,
    hptr.le.trans htail⟩

end Stuck

end RingSpace
