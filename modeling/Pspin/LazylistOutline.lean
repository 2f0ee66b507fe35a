/-
`lazylist.h` used by several HPUs: what a call knows at each of its accesses.

What a call knows of itself is in one record (`local_t`): its node, what it has done, and
its locks. What it knows of the list holds from a validation on, about the nodes that it
has locked. The functions that all calls use are verified here.
-/
import Pspin.LazylistStores

set_option autoImplicit false

namespace Pspin.Lazylist

open Interleave LinkedPath RangeList
open Function (update)

variable {Hpu : Type} [DecidableEq Hpu] {s : shared_t Hpu} {g : ghost_t Hpu} {h : Hpu} {c i : ℕ}

/-! ## Accesses -/

section Accesses

variable {R : Type} {s' : shared_t Hpu} {list list' : lazylist_t}

theorem access_ok {a : access_t R} {r : R} : s.access h a = .ok r s' ↔
    ∃ list, sem s.list a.op = .ok r list ∧ s' = (s.store list).record h a.note := by
  rw [shared_t.access]
  cases sem s.list a.op with
  | ok r' list =>
      simp only [Access.ok.injEq, shared_t.store]
      constructor
      · rintro ⟨rfl, rfl⟩
        exact ⟨list, ⟨rfl, rfl⟩, rfl⟩
      · rintro ⟨_, ⟨rfl, rfl⟩, rfl⟩
        exact ⟨rfl, rfl⟩
  | wait => simp
  | undefined => simp

theorem at_node_ok {a : Access lazylist_t R} {r : R} :
    at_node i a = .ok r list ↔ i < NUM_SEGMENTS + 2 ∧ a = .ok r list := by
  rw [at_node]
  split <;> simp_all

/-- The statistics have no entries for the sentinels. -/
theorem at_mark_ok {a : Access lazylist_t R} {r : R} :
    at_mark i a = .ok r list ↔ i < NUM_SEGMENTS ∧ a = .ok r list := by
  rw [at_mark]
  split <;> simp_all

theorem node_store {u : Unit} (hs : at_node i (.ok () list) = .ok u list') : list = list' :=
  ((Access.ok.injEq ..).mp (at_node_ok.mp hs).2).2

theorem mark_store {u : Unit} (hs : at_mark i (.ok () list) = .ok u list') : list = list' :=
  ((Access.ok.injEq ..).mp (at_mark_ok.mp hs).2).2

/-- A lock is taken by whoever finds it free. -/
theorem futex_lock_s_ok {lock : ℕ} {u : Unit} :
    futex_lock_s lock list = .ok u list' ↔ lock = 0 ∧ list = list' := by
  rw [futex_lock_s]
  split <;> simp_all

/-- What an operation reads, when it only reads. -/
def op_t.value (list : lazylist_t) : op_t R → Option R
  | .head_idx => some list.head_idx
  | .free_head_idx => some list.free_head_idx
  | .free_head_lock => some list.free_head_lock
  | .idx i => some (list.idx i)
  | .left i => some (list.left i)
  | .right i => some (list.right i)
  | .next_idx i => some (list.next_idx i)
  | .mark i => some (list.marks i)
  | _ => none

theorem sem_value {o : op_t R} {r v : R} (hv : o.value list = some v)
    (hs : sem list o = .ok r list') : r = v ∧ list' = list := by
  cases o <;> simp only [op_t.value, Option.some.injEq, reduceCtorEq] at hv <;>
    simp only [sem, at_node_ok, at_mark_ok, Access.ok.injEq] at hs <;> grind

theorem readOnly_on {note : note_t} {o : op_t R} {v : lazylist_t → R}
    (hv : ∀ list, o.value list = some (v list))
    (hn : ∀ s : shared_t Hpu, s.record h note = s) :
    (noted note o).ReadOnly ((calls Hpu c).sem h) := by
  refine ⟨fun s r s' hs => ?_, fun _ => trivial⟩
  obtain ⟨list, hl, rfl⟩ := access_ok.mp hs
  obtain ⟨-, rfl⟩ := sem_value (hv s.list) hl
  exact hn _

section Rules

variable {A : shared_t Hpu → ghost_t Hpu → Prop} {note : note_t}

/-- A read. -/
theorem read {o : op_t R} {B : R → shared_t Hpu → ghost_t Hpu → Prop} {v : lazylist_t → R}
    (hv : ∀ list, o.value list = some (v list)) (hn : ∀ s : shared_t Hpu, s.record h note = s)
    (hA : (rely Hpu c).Stable h A) (hB : ∀ r, (rely Hpu c).Stable h (B r))
    (hs : ∀ s g, Inv (c - 2) s g → A s g → covered h ⟨o, note⟩ s →
      sem s.list o = .ok (v s.list) s.list → B (v s.list) s g) :
    (rely Hpu c).Triple h A (noted note o) B := by
  refine Rely.Triple.read hA hB fun s g r s' hI hAs hm hsem => ?_
  obtain ⟨list, hl, rfl⟩ := access_ok.mp hsem
  obtain ⟨rfl, rfl⟩ := sem_value (hv s.list) hl
  exact ⟨hn s, hs s g hI hAs hm hl⟩

/-- A read of a value that is known. -/
theorem read_known {o : op_t R} {v : lazylist_t → R} {x : R}
    (hv : ∀ list, o.value list = some (v list)) (hA : (rely Hpu c).Stable h A)
    (hx : ∀ s g, Inv (c - 2) s g → A s g → v s.list = x) :
    (rely Hpu c).Triple h A (on o) fun r s g => r = x ∧ A s g :=
  read hv (fun _ => rfl) hA (fun _ => Rely.Stable.and (Rely.Stable.pure _) hA)
    fun s g hI hAs _ _ => ⟨hx s g hI hAs, hAs⟩

/-- A store, or an operation on a lock. -/
theorem store {o : op_t Unit} {B : shared_t Hpu → ghost_t Hpu → Prop}
    (hA : (rely Hpu c).Stable h A) (hB : (rely Hpu c).Stable h B)
    (hs : ∀ s g list, Inv (c - 2) s g → A s g → covered h ⟨o, note⟩ s →
      sem s.list o = .ok () list → ∃ g', Keeps (c - 2) h s g ((s.store list).record h note) g' ∧
        B ((s.store list).record h note) g') :
    (rely Hpu c).Triple h A (noted note o) fun _ => B := by
  refine Rely.Triple.access hA (fun _ => hB) fun s g r s' hI hAs hm hsem => ?_
  obtain ⟨list, hl, rfl⟩ := access_ok.mp hsem
  exact hs s g list hI hAs hm hl

end Rules

end Accesses

/-! ## What a call knows of itself -/

/-- The node that the call has for itself, the node that it takes out, the range that it has
still to insert, its events, and its locks. -/
structure local_t where
  flight : Option ℕ
  leaving : Option ℕ
  pending : Option lazylist_range_t
  events : List event_t
  locks : List ℕ

/-- A call that has done nothing yet. -/
def local_t.fresh (pending : Option lazylist_range_t) : local_t := ⟨none, none, pending, [], []⟩

/-- What a call knows of itself: the node it has in flight, the one it takes out, the range it is
about to insert, its events and its locks. -/
structure Knows (h : Hpu) (l : local_t) (s : shared_t Hpu) (g : ghost_t Hpu) : Prop where
  flight : g.flight h = l.flight
  leaving : s.leaving h = l.leaving
  pending : ∀ r, l.pending = some r → g.pending h = some r
  events : s.events h = s.ended h ++ l.events
  locks : ∀ i ∈ l.locks, g.holder i = some h

variable {l : local_t}

theorem Knows.stable : (rely Hpu c).Stable h (Knows h l) := fun _ _ _ _ hk hr _ =>
  { flight := hr.flight.trans hk.flight
    leaving := hr.leaving.trans hk.leaving
    pending := fun r hp => hr.pending.trans (hk.pending r hp)
    events := by rw [hr.events, hr.ended, hk.events]
    locks := fun i hi => hr.holder i (hk.locks i hi) }

/-! ## Locks -/

/-- Taking the lock of a node. It is not one of the caller's own, since nobody spins on that. -/
theorem lock_node : (rely Hpu c).Triple h (Knows h l) (on (.lock i)) fun _ s g =>
    (i < NUM_SEGMENTS + 2 ∧ i ∉ l.locks) ∧ Knows h { l with locks := i :: l.locks } s g := by
  refine store Knows.stable (Rely.Stable.and (Rely.Stable.pure _) Knows.stable)
    fun s g list hI hk _ hs => ?_
  obtain ⟨hi, hs⟩ := at_node_ok.mp hs
  obtain ⟨h0, rfl⟩ := futex_lock_s_ok.mp hs
  have hnone := hI.guard.lock i h0
  have hil : i ∉ l.locks := fun hm => nomatch hnone.symm.trans (hk.locks i hm)
  refine ⟨_, hI.lock h h0, ⟨hi, hil⟩, { hk with locks := fun j hj => ?_ }⟩
  rcases List.mem_cons.mp hj with rfl | hj
  · exact Function.update_self _ _ _
  · exact (Function.update_of_ne (ne_of_mem_of_not_mem hj hil) _ _).trans (hk.locks j hj)

theorem unlock_node {locks : List ℕ} (hi : i ∉ locks) (hl : l.leaving = none) :
    (rely Hpu c).Triple h (Knows h { l with locks := i :: locks }) (on (.unlock i)) fun _ =>
      Knows h { l with locks := locks } := by
  refine store Knows.stable Knows.stable fun s g list hI hk _ hs => ?_
  obtain rfl := node_store hs
  refine ⟨_, hI.unlock (hk.locks i List.mem_cons_self) (hk.leaving.trans hl),
    { hk with locks := fun j hj => ?_ }⟩
  exact (Function.update_of_ne (ne_of_mem_of_not_mem hj hi) _ _).trans
    (hk.locks j (List.mem_cons_of_mem i hj))

/-- Both locks of a call are given back. -/
theorem unlock_both {i j : ℕ} (hi : i ≠ j) (hl : l.locks = []) (hlv : l.leaving = none) {α : Type}
    {p : Code α} {B : α → shared_t Hpu → ghost_t Hpu → Prop}
    (hp : (rely Hpu c).Triple h (Knows h l) p B) :
    (rely Hpu c).Triple h (Knows h { l with locks := [j, i] })
      (do
        on (.unlock j)
        on (.unlock i)
        p) B := by
  have hl' : { l with locks := [] } = l := by rw [← hl]
  have h2 : (rely Hpu c).Triple h (Knows h { l with locks := [j, i] }) (on (.unlock j))
      fun _ => Knows h { l with locks := [i] } := unlock_node (by simpa using hi.symm) hlv
  have h1 : (rely Hpu c).Triple h (Knows h { l with locks := [i] }) (on (.unlock i))
      fun _ => Knows h { l with locks := [] } := unlock_node (by simp) hlv
  exact h2.bind fun _ => h1.bind fun _ => hl' ▸ hp

/-! ## What a call knows of its two nodes -/

/-- The two nodes that the call has validated, with their ranges. -/
structure Between (h : Hpu) (pred curr : ℕ) (a b : lazylist_range_t) (s : shared_t Hpu)
    (g : ghost_t Hpu) : Prop where
  window : Window h pred curr s g
  pred_left : s.list.left pred = a.left
  pred_right : s.list.right pred = a.right
  curr_left : s.list.left curr = b.left
  curr_right : s.list.right curr = b.right

section Between

variable {pred curr : ℕ} {a b : lazylist_range_t}

/-- The two nodes of a window stay in the array. -/
theorem Window.stable : (rely Hpu c).Stable h (Window h pred curr) := by
  intro s g s' g' hw hr hI
  refine ⟨hr.holder _ hw.pred_held, hr.holder _ hw.curr_held, hr.mem _ hw.pred_mem hw.pred_held,
    hr.mem _ hw.curr_mem hw.curr_held, ?_⟩
  -- a store of `pop_front` to the link of the head waits for the lock of the front
  by_cases hn : pred = s.list.head_idx
  · exact hn ▸ hr.front _ hw.curr_mem hw.curr_held (hn ▸ hw.next)
  · exact (hr.next _ hw.pred_mem hw.pred_held hn).trans hw.next

/-- Once they are locked nobody moves their ranges or their link. -/
theorem Between.stable : (rely Hpu c).Stable h (Between h pred curr a b) := by
  intro s g s' g' hb hr hI
  obtain ⟨hw, h1, h2, h3, h4⟩ := hb
  exact ⟨Window.stable hw hr hI, (hr.left _ hw.pred_mem hw.pred_held).trans h1,
    (hr.right _ hw.pred_mem hw.pred_held).trans h2, (hr.left _ hw.curr_mem hw.curr_held).trans h3,
    (hr.right _ hw.curr_mem hw.curr_held).trans h4⟩

/-- A store to a node of one's own. -/
theorem Between.own_store (hb : Between h pred curr a b s g)
    (hI : Inv (c - 2) s g) (hi : g.flight h = some i) {list : lazylist_t}
    (hs : Inv.OnlyNode s.list list i) : Between h pred curr a b (s.store list) g := by
  have hout := hI.shape.flight_chain h i hi
  obtain ⟨hw, h1, h2, h3, h4⟩ := hb
  have hp := ne_of_mem_of_not_mem hw.pred_mem hout
  have hc := ne_of_mem_of_not_mem hw.curr_mem hout
  exact ⟨{ hw with next := (hs.next _ hp).trans hw.next }, (hs.left _ hp).trans h1,
    (hs.right _ hp).trans h2, (hs.left _ hc).trans h3, (hs.right _ hc).trans h4⟩

end Between

/-! ## The free list -/

/-- The call has locked the free list. -/
structure Free (h : Hpu) (free : List ℕ) (s : shared_t Hpu) (g : ghost_t Hpu) : Prop where
  holder : g.free_holder = some h
  free : g.free = free

section Free

variable {free : List ℕ} {K : shared_t Hpu → ghost_t Hpu → Prop}

/-- Once the free list is locked nobody moves it. -/
theorem Free.stable : (rely Hpu c).Stable h (Free h free) := fun _ _ _ _ hf hr _ =>
  ⟨hr.free_holder hf.holder, (hr.free hf.holder).trans hf.free⟩

/-- The head register names its first node. -/
theorem Free.head (hf : Free h free s g) (hI : Inv (c - 2) s g) :
    s.list.free_head_idx = free.headD EOL := by
  have hp := hI.shape.path
  rw [hf.free] at hp
  cases free with
  | nil => exact hp
  | cons i free => exact hp.1

/-- `K` does not look at the lock of the free list. -/
structure Frame (c : ℕ) (h : Hpu) (K : shared_t Hpu → ghost_t Hpu → Prop) : Prop where
  stable : (rely Hpu c).Stable h K
  lock : ∀ (s : shared_t Hpu) (g : ghost_t Hpu) v holder, K s g →
    K (s.store { s.list with free_head_lock := v }) { g with free_holder := holder }

theorem lock_free (hK : Frame c h K) : (rely Hpu c).Triple h K (on .lock_free_head) fun _ s g =>
    ∃ free, Free h free s g ∧ K s g := by
  refine store hK.stable (Rely.Stable.of_exists fun _ => Rely.Stable.and Free.stable hK.stable)
    fun s g list hI hk _ hs => ?_
  obtain ⟨h0, rfl⟩ := futex_lock_s_ok.mp hs
  exact ⟨_, hI.lock_free h h0, g.free, ⟨rfl, rfl⟩, hK.lock s g _ _ hk⟩

theorem unlock_free (hK : Frame c h K) :
    (rely Hpu c).Triple h (fun s g => Free h free s g ∧ K s g) (on .unlock_free_head)
      fun _ => K := by
  refine store (Rely.Stable.and Free.stable hK.stable) hK.stable fun s g list hI hk _ hs => ?_
  obtain ⟨-, rfl⟩ := (Access.ok.injEq ..).mp hs
  exact ⟨_, hI.unlock_free hk.1.holder, hK.lock s g _ _ hk.2⟩

/-- What a call knows of itself is a frame for the free list. -/
theorem Frame.knows : Frame c h (Knows h l) where
  stable := Knows.stable
  lock _ _ _ _ hk := { hk with }

/-- What a call knows while it inserts. -/
def Validated (h : Hpu) (l : local_t) (pred curr : ℕ) (a b : lazylist_range_t) (s : shared_t Hpu)
    (g : ghost_t Hpu) : Prop :=
  Knows h l s g ∧ Between h pred curr a b s g

variable {pred curr : ℕ} {a b : lazylist_range_t}

theorem Validated.stable : (rely Hpu c).Stable h (Validated h l pred curr a b) :=
  Rely.Stable.and Knows.stable Between.stable

theorem Frame.validated : Frame c h (Validated h l pred curr a b) where
  stable := Validated.stable
  lock _ _ _ _ hk := ⟨{ hk.1 with }, { hk.2 with window := { hk.2.window with } }⟩

/-- The link of a node of the free list. -/
theorem Free.next_stable {x m : ℕ} (hm : m ∈ free) :
    (rely Hpu c).Stable h fun s g => Free h free s g ∧ s.list.next_idx m = x :=
  fun _ _ _ _ hf hr hI => ⟨Free.stable hf.1 hr hI,
    (hr.free_next hf.1.holder m (hf.1.free ▸ hm)).trans hf.2⟩

/-- The read of the first node, by a call that has locked the free list. -/
theorem read_free_head (hK : (rely Hpu c).Stable h K) :
    (rely Hpu c).Triple h (fun s g => Free h free s g ∧ K s g) (on .free_head_idx) fun i s g =>
      i = free.headD EOL ∧ Free h free s g ∧ K s g :=
  read_known (fun _ => rfl) (Rely.Stable.and Free.stable hK) fun _ _ hI hA => hA.1.head hI

/-- A node is taken, and nothing else of what the call knows changes. -/
theorem get_free_node (hl : l.flight = none) :
    (rely Hpu c).Triple h (Validated h l pred curr a b) lazylist_get_free_node fun m =>
      Validated h { l with flight := m } pred curr a b := by
  have hV {l : local_t} : (rely Hpu c).Stable h (Validated h l pred curr a b) := Validated.stable
  have hF {free : List ℕ} : (rely Hpu c).Stable h (Free h free) := Free.stable
  refine (lock_free Frame.validated).bind fun _ => Rely.Triple.of_exists fun free => ?_
  refine (read (fun _ => rfl) (fun _ => rfl) (Rely.Stable.and hF hV)
    (fun _ => Rely.Stable.and hF hV) fun s g _ hA _ _ => hA).bind fun free_head_lock => ?_
  split
  · refine (read_free_head hV).bind fun free_node => Rely.Triple.pure fun hf => ?_
    subst hf
    cases free with
    | nil =>
        -- the link behind the end of the list is outside the array
        refine (read (fun _ => rfl) (fun _ => rfl) (Rely.Stable.and hF hV)
          (fun _ => Rely.Stable.pure False) fun s g _ _ _ hs => ?_).bind fun _ => Rely.Triple.false
        exact absurd (at_node_ok.mp hs).1 (by decide)
    | cons m free =>
        have hm : m ∈ m :: free := List.mem_cons_self
        refine (read (fun _ => rfl) (fun _ => rfl) (Rely.Stable.and hF hV)
          (fun x => Rely.Stable.and (Free.next_stable (x := x) hm) hV)
          fun s g _ hA _ _ => ⟨⟨hA.1, rfl⟩, hA.2⟩).bind fun next_idx => ?_
        refine (store (Rely.Stable.and (Free.next_stable hm) hV)
          (Rely.Stable.and (hF : (rely Hpu c).Stable h (Free h free))
            (hV (l := { l with flight := some m }))) fun s g list hI hA _ hs => ?_).bind fun _ =>
              (unlock_free Frame.validated).bind fun _ => ?_
        · obtain ⟨⟨hf, rfl⟩, hk, hb⟩ := hA
          obtain ⟨-, rfl⟩ := (Access.ok.injEq ..).mp hs
          exact ⟨_, hI.get_free hf.free hf.holder, ⟨hf.holder, rfl⟩,
            { hk with flight := Function.update_self _ _ _ },
            { hb with window := { hb.window with } }⟩
        · exact Rely.Triple.ret hV fun _ _ _ hA => hA
  · refine (unlock_free Frame.validated).bind fun _ => Rely.Triple.ret hV fun s g _ hA => ?_
    exact ⟨{ hA.1 with flight := hA.1.flight.trans hl }, hA.2⟩

/-- The store to the link of the call's own node. -/
theorem own_next_stable {x : ℕ} (hl : l.flight = some i) :
    (rely Hpu c).Stable h fun s g => Knows h l s g ∧ s.list.next_idx i = x :=
  fun _ _ _ _ hk hr hI => ⟨Knows.stable hk.1 hr hI,
    (hr.own_next i (hk.1.flight.trans hl)).trans hk.2⟩

/-- The node of the call goes back to the free list. -/
theorem put_free_node (hl : l.flight = some i) :
    (rely Hpu c).Triple h (Knows h l) (lazylist_put_free_node i) fun _ =>
      Knows h { l with flight := none } := by
  have hK {l : local_t} : (rely Hpu c).Stable h (Knows h l) := Knows.stable
  have hF {free : List ℕ} : (rely Hpu c).Stable h (Free h free) := Free.stable
  refine (lock_free Frame.knows).bind fun _ => Rely.Triple.of_exists fun free => ?_
  refine (read_free_head hK).bind fun free_head_idx => Rely.Triple.pure fun hf => ?_
  have hN : (rely Hpu c).Stable h fun s g => Free h free s g ∧ Knows h l s g ∧
      s.list.next_idx i = free_head_idx := Rely.Stable.and hF (own_next_stable hl)
  refine (store (Rely.Stable.and hF hK) hN fun s g list hI hA _ hs => ?_).bind fun _ =>
    (read_known (x := i) (fun _ => rfl) hN fun s g hI hA => ?_).bind fun idx =>
      Rely.Triple.pure fun hidx => ?_
  · obtain rfl := node_store hs
    have hi := hA.2.flight.trans hl
    exact ⟨g, hI.own_store hi (.set_next_idx s.list _), ⟨hA.1.holder, hA.1.free⟩, { hA.2 with },
      Function.update_self _ _ _⟩
  · exact hI.shape.idx i ((hI.shape.flight_lt h i (hA.2.1.flight.trans hl)).le.trans (by omega))
  · subst hidx
    refine (store hN (Rely.Stable.and (hF : (rely Hpu c).Stable h (Free h (idx :: free)))
      (hK (l := { l with flight := none }))) fun s g list hI hA _ hs => ?_).bind fun _ =>
        unlock_free Frame.knows
    obtain ⟨-, rfl⟩ := (Access.ok.injEq ..).mp hs
    obtain ⟨hfree, hk, hn⟩ := hA
    exact ⟨_, hI.put_free (hk.flight.trans hl) hfree.holder
      (hn.trans (hf.trans (hfree.head hI).symm)), ⟨hfree.holder, by rw [hfree.free]⟩,
      { hk with flight := Function.update_self _ _ _ }⟩

end Free

/-! ## Functions that only read -/

section Reads

variable {R : Type} {A : shared_t Hpu → ghost_t Hpu → Prop} {pred curr : ℕ}

theorem keep {o : op_t R} {v : lazylist_t → R} (hv : ∀ list, o.value list = some (v list))
    (hA : (rely Hpu c).Stable h A) : (rely Hpu c).Triple h A (on o) fun _ => A :=
  Rely.Triple.readOnly (readOnly_on hv fun _ => rfl) hA

theorem readOnly_validate : (lazylist_validate pred curr).ReadOnly ((calls Hpu c).sem h) := by
  have hon {R : Type} {o : op_t R} {v : lazylist_t → R} (hv : ∀ list, o.value list = some (v list)) :
      (on o).ReadOnly ((calls Hpu c).sem h) := readOnly_on hv fun _ => rfl
  refine (hon fun _ => rfl).bind fun _ => (hon fun _ => rfl).bind fun _ => ?_
  split
  · trivial
  · refine (hon fun _ => rfl).bind fun _ => (hon fun _ => rfl).bind fun _ => ?_
    split
    · trivial
    · exact (hon fun _ => rfl).bind fun _ => (hon fun _ => rfl).bind fun _ => trivial

theorem readOnly_starts_elsewhere {front : ℕ} {range_left : ℤ} :
    (starts_elsewhere front range_left).ReadOnly ((calls Hpu c).sem h) := by
  rw [starts_elsewhere]
  split
  · trivial
  · exact (readOnly_on (fun _ => rfl) fun _ => rfl).bind fun _ => trivial

theorem readOnly_validate_front {front front_next : ℕ} {range_left : ℤ} :
    (validate_front front front_next range_left).ReadOnly ((calls Hpu c).sem h) := by
  refine readOnly_validate.bind fun valid => ?_
  split
  · exact (readOnly_on (fun _ => rfl) fun _ => rfl).bind fun _ => trivial
  · trivial

/-- A search that is not misled finds two nodes. -/
theorem find_pred_loop {range : lazylist_range_t} (hA : (rely Hpu c).Stable h A) (fuel : ℕ) :
    ∀ pred curr, (rely Hpu c).Triple h A (lazylist_find_pred_loop range fuel pred curr)
      fun r s g => r ≠ none ∧ A s g := by
  induction fuel with
  | zero => exact fun _ _ => Rely.Triple.unfinished
  | succ fuel ih =>
      intro pred curr
      refine (keep (fun _ => rfl) hA).bind fun right => ?_
      split
      · exact (keep (fun _ => rfl) hA).bind fun curr_idx => ih curr curr_idx
      · refine (read (fun _ => rfl) (fun _ => rfl) hA
          (fun left => Rely.Stable.and (Rely.Stable.pure (range.right < left)) hA)
          fun _ _ _ hA hm _ => ⟨hm, hA⟩).bind fun left => Rely.Triple.pure fun hlt => ?_
        rw [if_neg (not_le.mpr hlt)]
        exact Rely.Triple.ret hA fun _ _ _ hA => ⟨nofun, hA⟩

/-- The search keeps what is stable, and ends at some node: the tail sentinel ends every walk. -/
theorem find_pred {range : lazylist_range_t} (hA : (rely Hpu c).Stable h A) (fuel : ℕ) :
    (rely Hpu c).Triple h A (lazylist_find_pred fuel range) fun r s g => r ≠ none ∧ A s g :=
  (keep (fun _ => rfl) hA).bind fun head_idx => find_pred_loop hA fuel head_idx head_idx

end Reads

end Pspin.Lazylist
