/-
`lazylist.h` used by several HPUs.

A step is one access of one call. The calls are looked at together with a record of what
they have done: a range is inserted by the store that puts it into the list, and popped by
the store that marks its node. From that store on until the node is out of the list, the
node is being taken out and no longer counts.

The code validates its two nodes once, with two marks and one link, and does not look at
their ranges again; it uses nodes again that other calls still point to; `pop_front`
stores to the link of the head without its lock. `covered` are the steps at which this
does no harm.
-/
import Pspin.Lazylist
import Pspin.RangeList

set_option autoImplicit false

namespace Pspin.Lazylist

open Interleave LinkedPath RangeList
open Function (update)

/-- What a call does to the ranges in the list. -/
inductive event_t
  | inserted (range : lazylist_range_t)
  | popped (range : lazylist_range_t)
deriving DecidableEq

/-- The memory, and the record of what the calls have done: the nodes that are being taken
out, the events in their order, the ranges of the insertions so far begun, and what the
calls that have ended report. -/
structure shared_t (Hpu : Type) where
  list : lazylist_t
  leaving : Hpu → Option ℕ
  log : List (Hpu × event_t)
  started : List lazylist_range_t
  ended : Hpu → List event_t

variable {Hpu : Type} [DecidableEq Hpu]

namespace shared_t

def record (s : shared_t Hpu) (h : Hpu) : note_t → shared_t Hpu
  | .inserted range to_delete =>
    { s with log := s.log ++ [(h, .inserted range)], leaving := update s.leaving h to_delete }
  | .popped range to_delete =>
    { s with log := s.log ++ [(h, .popped range)], leaving := update s.leaving h (some to_delete) }
  | .unlinked => { s with leaving := update s.leaving h none }
  | _ => s

/-- One access of HPU `h`. -/
def access (h : Hpu) {R : Type} (a : access_t R) (s : shared_t Hpu) : Access (shared_t Hpu) R :=
  match sem s.list a.op with
  | .ok r list => .ok r ({ s with list := list }.record h a.note)
  | .wait => .wait
  | .undefined => .undefined

/-- The events of one HPU. -/
def events (s : shared_t Hpu) (h : Hpu) : List event_t :=
  s.log.filterMap fun e => if e.1 = h then some e.2 else none

end shared_t

/-- What a call to `lazylist_insert` reports. -/
def insert_call (fuel : ℕ) (range : lazylist_range_t) : Code (List event_t) := do
  let error ← lazylist_insert fuel range
  return if error = 0 then [.inserted range] else []

/-- What a call to `lazylist_pop_front` reports. -/
def pop_front_call (fuel : ℕ) (range_left : ℤ) : Code (List event_t) := do
  match ← lazylist_pop_front fuel range_left with
  | none => return []
  | some range => return [.popped range]

/-- The integers of a range. -/
def lazylist_range_t.values (range : lazylist_range_t) : Set ℤ := Set.Icc range.left range.right

structure lazylist_range_t.Proper (range : lazylist_range_t) : Prop where
  min : INT32_MIN < range.left
  le : range.left ≤ range.right
  max : range.right < INT32_MAX

/-- An HPU calls `lazylist_insert` with a range that shares nothing with those of the other
insertions, or `lazylist_pop_front`. -/
inductive start : shared_t Hpu → Code (List event_t) → shared_t Hpu → Prop
  | insert {s : shared_t Hpu} (fuel : ℕ) {range : lazylist_range_t} (hr : range.Proper)
      (hd : ∀ r ∈ s.started, Disjoint range.values r.values) :
      start s (insert_call fuel range) { s with started := range :: s.started }
  | pop_front {s : shared_t Hpu} (fuel : ℕ) (range_left : ℤ) :
      start s (pop_front_call fuel range_left) s

/-- The list as `lazylist_init` leaves it. -/
inductive initial (capacity : ℕ) : shared_t Hpu → Prop
  | init (list : lazylist_t) (hc : 3 ≤ capacity) (hc' : capacity ≤ NUM_SEGMENTS) :
      initial capacity ⟨lazylist_init list capacity, fun _ => none, [], [], fun _ => []⟩

/-- Calls of any number of HPUs to one list. -/
def calls (Hpu : Type) [DecidableEq Hpu] (capacity : ℕ) :
    System Hpu (shared_t Hpu) access_t (List event_t) where
  init := initial capacity
  sem h _ a s := s.access h a
  start _ s p s' := start s p s'
  finish h a s := { s with ended := update s.ended h (s.ended h ++ a) }

/-! ## What the runs should keep -/

/-- The nodes of the list, from sentinel to sentinel. -/
def Linked (list : lazylist_t) (chain : List ℕ) : Prop :=
  Path list.next_idx EOL list.head_idx chain

/-- The nodes that no HPU is taking out. -/
noncomputable def live (leaving : Hpu → Option ℕ) (chain : List ℕ) : List ℕ :=
  open Classical in chain.filter fun i => ∀ h, leaving h ≠ some i

/-- `v` is in a range that has been inserted. -/
def shared_t.Inserted (s : shared_t Hpu) (v : ℤ) : Prop :=
  ∃ h range, (h, event_t.inserted range) ∈ s.log ∧ v ∈ range.values

/-- `v` is in a range that has been popped. -/
def shared_t.Popped (s : shared_t Hpu) (v : ℤ) : Prop :=
  ∃ h range, (h, event_t.popped range) ∈ s.log ∧ v ∈ range.values

/-- The ranges popped so far. -/
def popped_ranges (log : List (Hpu × event_t)) : List lazylist_range_t :=
  log.filterMap fun e => match e.2 with
    | .inserted _ => none
    | .popped range => some range

/-- Nothing is lost or returned twice, the list is in order and without overlaps, and no
node is in the list and in the free list. -/
structure Intact (t : Threads Hpu (shared_t Hpu) access_t (List event_t)) : Prop where
  /-- The two lists have no node in common, and the ranges in the list are in order. -/
  lists : ∃ chain free, Linked t.shared.list chain ∧
    Path t.shared.list.next_idx EOL t.shared.list.free_head_idx free ∧ chain.Disjoint free ∧
    Spaced 0 t.shared.list.left t.shared.list.right (live t.shared.leaving chain) ∧
    ∀ v, INT32_MIN < v → v < INT32_MAX →
      (t.shared.Inserted v ↔
        v ∈ covers t.shared.list.left t.shared.list.right (live t.shared.leaving chain) ∨
          t.shared.Popped v) ∧
      ¬(v ∈ covers t.shared.list.left t.shared.list.right (live t.shared.leaving chain) ∧
          t.shared.Popped v)
  /-- No integer is returned twice. -/
  once : (popped_ranges t.shared.log).Pairwise fun r r' => Disjoint r.values r'.values
  /-- The calls that have ended report what they have done, in their order. -/
  reported : ∀ h, t.shared.ended h <+: t.shared.events h
  /-- What an idle HPU has done has been reported. -/
  idle : ∀ h, t.prog h = none → t.shared.ended h = t.shared.events h

/-! ## The steps at which the unlocked accesses do no harm -/

/-- The search is not misled to an overlap. Where `lazylist_insert` has validated its nodes,
the first of them is in the list, the second behind it, and neither has moved past the range.
Where `lazylist_pop_front` has validated its nodes, they are the first two behind the left
sentinel. The lock of a node from the free list is not held. -/
def covered (_ : Hpu) {R : Type} (a : access_t R) (s : shared_t Hpu) : Prop :=
  match a.note with
  | .overlap curr range => range.right < s.list.left curr
  | .place pred curr range =>
    (∃ chain, Linked s.list chain ∧ pred ∈ chain) ∧ s.list.next_idx pred = curr ∧
      s.list.left pred ≤ range.right ∧ range.left ≤ s.list.right curr
  | .remove front front_next =>
    s.list.next_idx s.list.head_idx = front ∧ s.list.next_idx front = front_next
  | .fresh_lock new_node => s.list.lock new_node = 0
  | _ => True

end Pspin.Lazylist
