/-
What a datatype means: the bytes of the message in stream order, each with its place in
the user's buffer.

`Dataloop.typemap` lists the elementary elements with their displacements. It is a plain
recursion over the tree, with no stack and no current position; the interpreter is compared
with it.
-/
import Pspin.Datatypes
import Pspin.NestedLoop

set_option autoImplicit false

open NestedLoop Fit

namespace Pspin.Datatypes

/-- An elementary element: where it is in the buffer, and its bytes. -/
structure Item where
  disp : Offset
  size : ℕ
  deriving DecidableEq

/-- The displacement of block `i`. -/
def LoopParams.place : LoopParams → ℕ → Offset
  | .c_t _, _ => 0
  | .v_t _ _ stride, i => BitVec.ofNat 64 i * stride
  | .bi_t _ _ offset_array, i => offset_array i
  | .i_t _ _ offset_array _, i => offset_array i

/-- What a loop describes: its items in the order of the message, each with its place relative to
`base`. This is the meaning of a datatype; the interpreter is compared with it. -/
def Dataloop.typemap : Dataloop → Offset → List Item
  | .final p el_size _, base =>
    blocks p.blocksize (fun c b => [⟨base + p.place c + BitVec.ofNat 64 (b * el_size), el_size⟩])
      0 p.count
  | .branch p _ el_extent dataloop, base =>
    blocks p.blocksize
      (fun c b => dataloop.typemap (base + p.place c + BitVec.ofNat 64 b * el_extent)) 0 p.count
  | .struct count blocksize_array offset_array el_extent_array _ dataloop_array, base =>
    blocks blocksize_array
      (fun c b => (dataloop_array c).typemap
        (base + offset_array c + BitVec.ofNat 64 b * el_extent_array c)) 0 count

/-- Where block `i` of the loop begins. -/
def Dataloop.place : Dataloop → ℕ → Offset
  | .final p _ _, i => p.place i
  | .branch p _ _ _, i => p.place i
  | .struct _ _ offset_array _ _ _, i => offset_array i

/-- Element `b` of block `c`. -/
def Dataloop.element : Dataloop → Offset → ℕ → ℕ → List Item
  | .final p el_size _, base, c, b => [⟨base + p.place c + BitVec.ofNat 64 (b * el_size), el_size⟩]
  | .branch p _ el_extent dataloop, base, c, b =>
    dataloop.typemap (base + p.place c + BitVec.ofNat 64 b * el_extent)
  | .struct _ _ offset_array el_extent_array _ dataloop_array, base, c, b =>
    (dataloop_array c).typemap (base + offset_array c + BitVec.ofNat 64 b * el_extent_array c)

/-- One equation for the three kinds of loops. -/
theorem Dataloop.typemap_eq (d : Dataloop) (base : Offset) :
    d.typemap base = blocks d.blocksize (d.element base) 0 d.count := by
  cases d <;> rfl

/-- The bytes of the message: those of each element, in order. -/
def addresses (l : List Item) : List Offset :=
  l.flatMap fun i => (List.range' 0 i.size).map fun k => i.disp + BitVec.ofNat 64 k

@[simp] theorem addresses_nil : addresses [] = [] := rfl

@[simp] theorem addresses_append (P Q : List Item) :
    addresses (P ++ Q) = addresses P ++ addresses Q := List.flatMap_append

@[simp] theorem addresses_length (l : List Item) : (addresses l).length = total Item.size l := by
  simp [addresses, total, List.length_flatMap]

/-! ## Well-formed datatypes -/

/-- Counts and blocks are positive, and fit the `int` that the source keeps indices in. -/
structure Sized (count : ℕ) (blocksize : ℕ → ℕ) : Prop where
  count_pos : 0 < count
  count_lt : count < 2 ^ 31
  block_pos : ∀ i < count, 0 < blocksize i
  block_lt : ∀ i < count, blocksize i < 2 ^ 31

/-- Counts and blocks are positive and fit an `int`, all the way down. -/
def Dataloop.WellFormed : Dataloop → Prop
  | .final p el_size _ => Sized p.count p.blocksize ∧ 0 < el_size
  | .branch p _ _ dataloop => Sized p.count p.blocksize ∧ dataloop.WellFormed
  | .struct count blocksize_array _ _ _ dataloop_array =>
    Sized count blocksize_array ∧ ∀ i < count, (dataloop_array i).WellFormed

/-- `DLOOP_MAX_DATATYPE_DEPTH`: the elements of the stack. -/
def DLOOP_MAX_DATATYPE_DEPTH : ℕ := 16

/-- The loops on the longest way down. -/
def Dataloop.depth : Dataloop → ℕ
  | .final _ _ _ => 1
  | .branch _ _ _ dataloop => dataloop.depth + 1
  | .struct count _ _ _ _ dataloop_array =>
    ((List.range count).map fun i => (dataloop_array i).depth).foldr max 0 + 1

variable {d : Dataloop} {base : Offset} {i : ℕ}

/-- In particular those of the loop itself. -/
theorem Dataloop.WellFormed.sized (h : d.WellFormed) : Sized d.count d.blocksize := by
  cases d with
  | final => exact h.1
  | branch => exact h.1
  | struct => exact h.1

/-- A number of a list is at most its maximum. -/
theorem le_foldr_max {l : List ℕ} {n : ℕ} (h : n ∈ l) : n ≤ l.foldr max 0 := by
  induction l with
  | nil => simp at h
  | cons a l ih =>
      rw [List.foldr_cons]
      rcases List.mem_cons.mp h with rfl | h
      · exact le_max_left _ _
      · exact (ih h).trans (le_max_right _ _)

/-- A struct is deeper than each of its loops. -/
theorem Dataloop.depth_struct {count el_size : ℕ} {blks : ℕ → ℕ} {offs exts : ℕ → Offset}
    {dls : ℕ → Dataloop} (hi : i < count) :
    (dls i).depth + 1 ≤ (Dataloop.struct count blks offs exts el_size dls).depth := by
  have hmem : (dls i).depth ∈ (List.range count).map fun i => (dls i).depth :=
    List.mem_map.mpr ⟨i, List.mem_range.mpr hi, rfl⟩
  exact Nat.add_le_add_right (le_foldr_max hmem) 1

/-- Every element of the map has bytes. -/
theorem Dataloop.WellFormed.item_pos (h : d.WellFormed) : ∀ it ∈ d.typemap base, 0 < it.size := by
  induction d generalizing base with
  | final p el_size el_extent =>
      intro it hit
      rw [Dataloop.typemap, blocks, List.mem_flatMap] at hit
      obtain ⟨c, -, hit⟩ := hit
      rw [elements, List.mem_flatMap] at hit
      obtain ⟨b, -, hit⟩ := hit
      rw [List.mem_singleton] at hit
      rw [hit]
      exact h.2
  | branch p el_size el_extent dataloop ih =>
      intro it hit
      rw [Dataloop.typemap, blocks, List.mem_flatMap] at hit
      obtain ⟨c, -, hit⟩ := hit
      rw [elements, List.mem_flatMap] at hit
      obtain ⟨b, -, hit⟩ := hit
      exact ih h.2 it hit
  | struct count blks offs exts el_size dls ih =>
      intro it hit
      rw [Dataloop.typemap, blocks, List.mem_flatMap] at hit
      obtain ⟨c, hc, hit⟩ := hit
      rw [elements, List.mem_flatMap] at hit
      obtain ⟨b, -, hit⟩ := hit
      rw [List.mem_range'_1] at hc
      exact ih c (h.2 c (by omega)) it hit

end Pspin.Datatypes
