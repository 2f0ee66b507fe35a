/-
`lazylist.h`: the list of received ranges of the out-of-order example.

The ranges are kept in an array of nodes that two lists share, linked by index: the list
proper, from the left sentinel to the right one, and the free list. A node is marked when
it is taken out of the list.

The functions are programs over single accesses to the shared memory and operations on
its locks, in the order in which the code makes them. A loop has a bound on its turns.
-/
import Mathlib.Algebra.Ring.Int.Defs
import Mathlib.Algebra.Ring.Nat
import Mathlib.Data.List.Range
import Pspin.Interleave
import Pspin.LinkedPath

set_option autoImplicit false

namespace Pspin.Lazylist

open Interleave
open Function (update)

/-- Size of the arrays, sentinels not counted. -/
def NUM_SEGMENTS : ℕ := 128

/-- The index that ends the free list. -/
def EOL : ℕ := 2 ^ 32 - 1

/-- A removal may ask for any range. -/
def RANGE_START_ANY : ℤ := 2 ^ 32 - 1

/-- The left sentinel's value. -/
def INT32_MIN : ℤ := -2 ^ 31

def INT32_MAX : ℤ := 2 ^ 31 - 1

/-- A range of integers, both ends included. -/
structure lazylist_range_t where
  left : ℤ
  right : ℤ
deriving DecidableEq, Repr

/-- The list in memory. The fields of `nodes` are maps from the index of the node. -/
structure lazylist_t where
  head_idx : ℕ
  free_head_idx : ℕ
  free_head_lock : ℕ
  idx : ℕ → ℕ
  left : ℕ → ℤ
  right : ℕ → ℤ
  lock : ℕ → ℕ
  next_idx : ℕ → ℕ
  marks : ℕ → ℕ

/-- One turn of the loop of `lazylist_init`. -/
def init_node (list : lazylist_t) (i : ℕ) : lazylist_t :=
  { list with
    idx := update list.idx i i
    next_idx := update list.next_idx i (i + 1)
    marks := update list.marks i 0
    lock := update list.lock i 0 }

/-- A sentinel: no lock, and a range at one end of the integers. -/
def init_sentinel (list : lazylist_t) (i next_idx : ℕ) (range : lazylist_range_t) : lazylist_t :=
  { list with
    idx := update list.idx i i
    lock := update list.lock i 0
    next_idx := update list.next_idx i next_idx
    left := update list.left i range.left
    right := update list.right i range.right }

/-- `lazylist_init`: the nodes make up the free list, the two behind them are the sentinels. The
marks are not touched. -/
def lazylist_init (list : lazylist_t) (capacity : ℕ) : lazylist_t :=
  let num_actual_nodes := capacity - 2
  let list := (List.range num_actual_nodes).foldl init_node list
  let list := { list with next_idx := update list.next_idx (num_actual_nodes - 1) EOL }
  let list := init_sentinel list num_actual_nodes (num_actual_nodes + 1) ⟨INT32_MIN, INT32_MIN⟩
  let list := init_sentinel list (num_actual_nodes + 1) EOL ⟨INT32_MAX, INT32_MAX⟩
  { list with head_idx := num_actual_nodes, free_head_idx := 0, free_head_lock := 0 }

/-! ## Accesses -/

/-- The accesses, each with the type of what it reads. -/
inductive op_t : Type → Type
  | head_idx : op_t ℕ
  | free_head_idx : op_t ℕ
  | set_free_head_idx (v : ℕ) : op_t Unit
  | free_head_lock : op_t ℕ
  | lock_free_head : op_t Unit
  | unlock_free_head : op_t Unit
  | idx (i : ℕ) : op_t ℕ
  | left (i : ℕ) : op_t ℤ
  | right (i : ℕ) : op_t ℤ
  | next_idx (i : ℕ) : op_t ℕ
  | mark (i : ℕ) : op_t ℕ
  | set_left (i : ℕ) (v : ℤ) : op_t Unit
  | set_right (i : ℕ) (v : ℤ) : op_t Unit
  | set_next_idx (i v : ℕ) : op_t Unit
  | set_lock (i v : ℕ) : op_t Unit
  | set_mark (i v : ℕ) : op_t Unit
  | lock (i : ℕ) : op_t Unit
  | unlock (i : ℕ) : op_t Unit

section Sem

variable {R : Type}

/-- An access to `nodes[i]`. -/
def at_node (i : ℕ) (a : Access lazylist_t R) : Access lazylist_t R :=
  if i < NUM_SEGMENTS + 2 then a else .undefined

/-- An access to `marks[i]`. -/
def at_mark (i : ℕ) (a : Access lazylist_t R) : Access lazylist_t R :=
  if i < NUM_SEGMENTS then a else .undefined

/-- `while (amo_or(futex, 1))`: a turn that finds the lock taken changes nothing. -/
def futex_lock_s (lock : ℕ) (locked : lazylist_t) : Access lazylist_t Unit :=
  if lock = 0 then .ok () locked else .wait

/-- What an access does. One beyond the arrays is undefined. -/
def sem (list : lazylist_t) : op_t R → Access lazylist_t R
  | .head_idx => .ok list.head_idx list
  | .free_head_idx => .ok list.free_head_idx list
  | .set_free_head_idx v => .ok () { list with free_head_idx := v }
  | .free_head_lock => .ok list.free_head_lock list
  | .lock_free_head => futex_lock_s list.free_head_lock { list with free_head_lock := 1 }
  | .unlock_free_head => .ok () { list with free_head_lock := 0 }
  | .idx i => at_node i (.ok (list.idx i) list)
  | .left i => at_node i (.ok (list.left i) list)
  | .right i => at_node i (.ok (list.right i) list)
  | .next_idx i => at_node i (.ok (list.next_idx i) list)
  | .mark i => at_mark i (.ok (list.marks i) list)
  | .set_left i v => at_node i (.ok () { list with left := update list.left i v })
  | .set_right i v => at_node i (.ok () { list with right := update list.right i v })
  | .set_next_idx i v => at_node i (.ok () { list with next_idx := update list.next_idx i v })
  | .set_lock i v => at_node i (.ok () { list with lock := update list.lock i v })
  | .set_mark i v => at_mark i (.ok () { list with marks := update list.marks i v })
  | .lock i => at_node i (futex_lock_s (list.lock i) { list with lock := update list.lock i 1 })
  | .unlock i => at_node i (.ok () { list with lock := update list.lock i 0 })

end Sem

/-! ## Code

Some accesses carry a note. It changes nothing; it says where in a call the access
stands, for what is said about the runs of several calls. -/

/-- What a call does with an access, for the log of a concurrent run; the code does not see it. -/
inductive note_t
  | plain
  /-- The test of `lazylist_find_pred` for an overlap of `curr` with `range`. -/
  | overlap (curr : ℕ) (range : lazylist_range_t)
  /-- `lazylist_insert` has validated its two nodes and goes on to place `range`. -/
  | place (pred_node curr_node : ℕ) (range : lazylist_range_t)
  /-- `lazylist_pop_front` has validated its two nodes and goes on to remove `front`. -/
  | remove (front front_next : ℕ)
  /-- The store that puts `range` into the list. It may leave a node to be taken out. -/
  | inserted (range : lazylist_range_t) (to_delete : Option ℕ)
  /-- The store that gives `range` to the caller, with the node to be taken out. -/
  | popped (range : lazylist_range_t) (to_delete : ℕ)
  /-- The store that takes this node out of the list. -/
  | unlinked
  /-- The lock of a node from the free list is set. -/
  | fresh_lock (new_node : ℕ)
deriving DecidableEq

/-- An access with its note. -/
structure access_t (R : Type) where
  op : op_t R
  note : note_t

/-- A function of the source. -/
abbrev Code (α : Type) : Type 1 := Prog access_t α

/-- One access with a note. -/
def noted {R : Type} (note : note_t) (o : op_t R) : Code R := .access ⟨o, note⟩ .ret

/-- One access. -/
abbrev on {R : Type} (o : op_t R) : Code R := noted .plain o

/-- `lazylist_get_free_node`: the test is of the lock, not of the index, and the lock is taken, so
the list is never found empty. -/
def lazylist_get_free_node : Code (Option ℕ) := do
  on .lock_free_head
  let free_head_lock ← on .free_head_lock
  if free_head_lock ≠ EOL then
    let free_node ← on .free_head_idx
    let next_idx ← on (.next_idx free_node)
    on (.set_free_head_idx next_idx)
    on .unlock_free_head
    pure (some free_node)
  else
    on .unlock_free_head
    pure none

/-- `lazylist_put_free_node`. -/
def lazylist_put_free_node (freed_node : ℕ) : Code Unit := do
  on .lock_free_head
  let free_head_idx ← on .free_head_idx
  on (.set_next_idx freed_node free_head_idx)
  let idx ← on (.idx freed_node)
  on (.set_free_head_idx idx)
  on .unlock_free_head

/-- The loop of `lazylist_find_pred` and the test behind it. -/
def lazylist_find_pred_loop (range : lazylist_range_t) :
    ℕ → (pred curr : ℕ) → Code (Option (ℕ × ℕ))
  | 0, _, _ => .unfinished
  | fuel + 1, pred, curr => do
    let right ← on (.right curr)
    if right < range.left then
      let curr_idx ← on (.next_idx curr)
      lazylist_find_pred_loop range fuel curr curr_idx
    else
      let left ← noted (.overlap curr range) (.left curr)
      if left ≤ range.right then
        pure none
      else
        pure (some (pred, curr))

def lazylist_find_pred (fuel : ℕ) (range : lazylist_range_t) : Code (Option (ℕ × ℕ)) := do
  let curr_idx ← on .head_idx
  lazylist_find_pred_loop range fuel curr_idx curr_idx

/-- `lazylist_validate`: neither node is marked, and they are still linked. -/
def lazylist_validate (pred curr : ℕ) : Code Bool := do
  let pred_idx ← on (.idx pred)
  let pred_mark ← on (.mark pred_idx)
  if pred_mark ≠ 0 then
    return false
  let curr_idx ← on (.idx curr)
  let curr_mark ← on (.mark curr_idx)
  if curr_mark ≠ 0 then
    return false
  let next_idx ← on (.next_idx pred)
  let curr_idx ← on (.idx curr)
  return decide (next_idx = curr_idx)

/-- `pred_node->range.right + 1 == range.left && pred_node->range.left > INT32_MIN` -/
def connects_left (pred_node curr_node : ℕ) (range : lazylist_range_t) : Code Bool := do
  let right ← noted (.place pred_node curr_node range) (.right pred_node)
  if right + 1 = range.left then
    let left ← on (.left pred_node)
    return decide (INT32_MIN < left)
  else
    return false

/-- `range.right + 1 == curr_node->range.left && curr_node->range.left < INT32_MAX` -/
def connects_right (curr_node : ℕ) (range : lazylist_range_t) : Code Bool := do
  let left ← on (.left curr_node)
  if range.right + 1 = left then
    let left ← on (.left curr_node)
    return decide (left < INT32_MAX)
  else
    return false

/-- `lazylist_insert` between two nodes that it has locked and validated: the error and
the node to delete. -/
def lazylist_insert_between (pred_node curr_node : ℕ) (range : lazylist_range_t) :
    Code (ℕ × Option ℕ) := do
  let left ← connects_left pred_node curr_node range
  let right ← connects_right curr_node range
  if left ∧ right then
    let curr_right ← on (.right curr_node)
    noted (.inserted range (some curr_node)) (.set_right pred_node curr_right)
    let curr_idx ← on (.idx curr_node)
    on (.set_mark curr_idx 1)
    let next_idx ← on (.next_idx curr_node)
    noted .unlinked (.set_next_idx pred_node next_idx)
    return (0, some curr_node)
  else if left then
    noted (.inserted range none) (.set_right pred_node range.right)
    return (0, none)
  else if right then
    noted (.inserted range none) (.set_left curr_node range.left)
    return (0, none)
  else
    match ← lazylist_get_free_node with
    | none => return (1, none)
    | some new_node =>
      on (.set_left new_node range.left)
      on (.set_right new_node range.right)
      let new_idx ← on (.idx new_node)
      on (.set_mark new_idx 0)
      noted (.fresh_lock new_node) (.set_lock new_node 0)
      let curr_idx ← on (.idx curr_node)
      on (.set_next_idx new_node curr_idx)
      let new_idx ← on (.idx new_node)
      noted (.inserted range none) (.set_next_idx pred_node new_idx)
      return (0, none)

/-- The end of `lazylist_insert`. -/
def lazylist_insert_end (error : ℕ) : Option ℕ → Code ℕ
  | none => pure error
  | some to_delete => do
    lazylist_put_free_node to_delete
    return error

/-- The loop of `lazylist_insert`: search, lock, validate, and start again if that fails. -/
def lazylist_insert_loop (fuel : ℕ) (range : lazylist_range_t) : ℕ → Code ℕ
  | 0 => .unfinished
  | turns + 1 => do
    match ← lazylist_find_pred fuel range with
    | none => return 0
    | some (pred_node, curr_node) =>
      -- the assertion reads the range and prints
      let _ ← on (.left pred_node)
      on (.lock pred_node)
      on (.lock curr_node)
      if ← lazylist_validate pred_node curr_node then
        let (error, to_delete) ← lazylist_insert_between pred_node curr_node range
        on (.unlock curr_node)
        on (.unlock pred_node)
        lazylist_insert_end error to_delete
      else
        on (.unlock curr_node)
        on (.unlock pred_node)
        lazylist_insert_loop fuel range turns

def lazylist_insert (fuel : ℕ) (range : lazylist_range_t) : Code ℕ :=
  lazylist_insert_loop fuel range fuel

/-- `range_left == RANGE_START_ANY`, compared as `uint32_t`. -/
def any_start (range_left : ℤ) : Bool := range_left % 2 ^ 32 = RANGE_START_ANY

/-- `range_left != RANGE_START_ANY && front->range.left != range_left` -/
def starts_elsewhere (front : ℕ) (range_left : ℤ) : Code Bool := do
  if any_start range_left then
    return false
  else
    let left ← on (.left front)
    return decide (left ≠ range_left)

/-- `lazylist_validate(..) && (front->range.left == range_left || range_left == ANY)` -/
def validate_front (front front_next : ℕ) (range_left : ℤ) : Code Bool := do
  if ← lazylist_validate front front_next then
    let left ← on (.left front)
    return decide (left = range_left) || any_start range_left
  else
    return false

/-- `lazylist_pop_front` with both nodes locked and validated: the range and the node to
delete. -/
def lazylist_remove_front (head_sentinel front front_next : ℕ) :
    Code (lazylist_range_t × ℕ) := do
  let left ← noted (.remove front front_next) (.left front)
  let right ← on (.right front)
  let front_idx ← on (.idx front)
  noted (.popped ⟨left, right⟩ front) (.set_mark front_idx 1)
  let next_idx ← on (.idx front_next)
  noted .unlinked (.set_next_idx head_sentinel next_idx)
  let to_delete_idx ← on (.idx front)
  return (⟨left, right⟩, to_delete_idx)

/-- The range popped, when one is. -/
def lazylist_pop_front_loop (range_left : ℤ) : ℕ → Code (Option lazylist_range_t)
  | 0 => .unfinished
  | turns + 1 => do
    let head_idx ← on .head_idx
    if head_idx = EOL then
      return none
    let head_sentinel ← on .head_idx
    let front ← on (.next_idx head_sentinel)
    let front_next ← on (.next_idx front)
    let left ← on (.left front)
    if left = INT32_MAX then
      return none
    if ← starts_elsewhere front range_left then
      return none
    on (.lock front)
    on (.lock front_next)
    if ← validate_front front front_next range_left then
      let (range, to_delete_idx) ← lazylist_remove_front head_sentinel front front_next
      on (.unlock front_next)
      on (.unlock front)
      lazylist_put_free_node to_delete_idx
      return some range
    else
      on (.unlock front_next)
      on (.unlock front)
      lazylist_pop_front_loop range_left turns

def lazylist_pop_front (fuel : ℕ) (range_left : ℤ) : Code (Option lazylist_range_t) :=
  lazylist_pop_front_loop range_left fuel

/-- A call with nothing beside it. -/
def exec {α : Type} (p : Code α) (list : lazylist_t) : Outcome lazylist_t α :=
  p.run (fun a list => sem list a.op) list

end Pspin.Lazylist
