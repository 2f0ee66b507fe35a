/-
`lazylist.h` used by several HPUs: what the calls keep, and what each counts on.

The ghost state says which nodes are in which list, who holds which lock, and which node
an HPU has for itself. The invariant has four parts: the links, the locks, the order of
the ranges, and the history. Each store of the code has a lemma that it keeps them.
-/
import Pspin.LazylistShared

set_option autoImplicit false

namespace Pspin.Lazylist

open Interleave LinkedPath RangeList
open Function (update)

/-- The nodes of the two lists, the holders of the locks, the node that an HPU has taken
out of a list, and the range that it has still to insert. -/
structure ghost_t (Hpu : Type) where
  chain : List ℕ
  free : List ℕ
  holder : ℕ → Option Hpu
  free_holder : Option Hpu
  flight : Hpu → Option ℕ
  pending : Hpu → Option lazylist_range_t

variable {Hpu : Type} [DecidableEq Hpu] {s : shared_t Hpu} {g : ghost_t Hpu} {h : Hpu} {n i : ℕ}

/-! ## Who owns what -/

/-- Who owns something after an update. -/
theorem owner_update {β : Type} {f : Hpu → Option β} {v : Option β} {k : Hpu} {x : β}
    (hk : update f h v k = some x) : k = h ∧ v = some x ∨ k ≠ h ∧ f k = some x := by
  by_cases hkh : k = h
  · rw [hkh, Function.update_self] at hk
    exact Or.inl ⟨hkh, hk⟩
  · rw [Function.update_of_ne hkh] at hk
    exact Or.inr ⟨hkh, hk⟩

theorem owner_update_none {β : Type} {f : Hpu → Option β} {k : Hpu} {x : β}
    (hk : update f h none k = some x) : k ≠ h ∧ f k = some x :=
  (owner_update hk).resolve_left nofun

/-! ## The nodes that count -/

section Live

variable {leaving : Hpu → Option ℕ} {l l' : List ℕ}

omit [DecidableEq Hpu] in
/-- The nodes that count, piece by piece. -/
theorem live_append : live leaving (l ++ l') = live leaving l ++ live leaving l' :=
  List.filter_append _ _

omit [DecidableEq Hpu] in
/-- A node that nobody takes out counts. -/
theorem live_cons (hi : ∀ h, leaving h ≠ some i) : live leaving (i :: l) = i :: live leaving l :=
  List.filter_cons_of_pos (by simpa using hi)

omit [DecidableEq Hpu] in
theorem live_cons_leaving (hi : leaving h = some i) : live leaving (i :: l) = live leaving l :=
  List.filter_cons_of_neg (by simpa using ⟨h, hi⟩)

omit [DecidableEq Hpu] in
theorem live_sublist : (live leaving l).Sublist l := List.filter_sublist

/-- A node elsewhere changes nothing. -/
theorem live_update {v : Option ℕ} (hl : ∀ i ∈ l, leaving h ≠ some i) (hv : ∀ i ∈ l, v ≠ some i) :
    live (update leaving h v) l = live leaving l := by
  refine List.filter_congr fun i hi => ?_
  simp only [decide_eq_decide]
  refine forall_congr' fun k => ?_
  by_cases hk : k = h
  · rw [hk, Function.update_self]
    exact iff_of_true (hv i hi) (hl i hi)
  · rw [Function.update_of_ne hk]

/-- A node that an HPU starts to take out. -/
theorem live_leave {X Y : List ℕ} (hl : leaving h = none) (hX : live leaving l = X ++ i :: Y)
    (hi : i ∉ X ++ Y) : live (update leaving h (some i)) l = X ++ Y := by
  have hfilter : live (update leaving h (some i)) l = (live leaving l).filter (· ≠ i) := by
    rw [live, live, List.filter_filter]
    refine List.filter_congr fun j _ => ?_
    apply Bool.eq_iff_iff.mpr
    simp only [decide_eq_true_eq, Bool.and_eq_true]
    constructor
    · intro hj
      refine ⟨fun he => hj h (he ▸ Function.update_self _ _ _), fun k hk => ?_⟩
      by_cases hkh : k = h
      · rw [hkh, hl] at hk
        exact nomatch hk
      · exact hj k ((Function.update_of_ne hkh _ _).trans hk)
    · rintro ⟨hji, hj⟩ k hk
      rcases owner_update hk with ⟨-, he⟩ | ⟨-, hk⟩
      · exact hji (Option.some.inj he).symm
      · exact hj k hk
  have hself : (X ++ Y).filter (· ≠ i) = X ++ Y :=
    List.filter_eq_self.mpr fun j hj => by simpa using ne_of_mem_of_not_mem hj hi
  rw [hfilter, hX, List.filter_append, List.filter_cons_of_neg (by simp), ← List.filter_append,
    hself]

end Live

/-! ## The invariant -/

/-- The two lists. -/
structure Shape (n : ℕ) (list : lazylist_t) (chain free : List ℕ) (flight : Hpu → Option ℕ) :
    Prop where
  capacity : n + 1 < NUM_SEGMENTS
  head : list.head_idx = n
  idx : ∀ i ≤ n + 1, list.idx i = i
  linked : Path list.next_idx EOL n chain
  ends : ∃ l, chain = n :: (l ++ [n + 1])
  chain_le : ∀ i ∈ chain, i ≤ n + 1
  path : Path list.next_idx EOL list.free_head_idx free
  free_lt : ∀ i ∈ free, i < n
  disjoint : chain.Disjoint free
  flight_lt : ∀ h i, flight h = some i → i < n
  flight_chain : ∀ h i, flight h = some i → i ∉ chain
  flight_free : ∀ h i, flight h = some i → i ∉ free
  flight_inj : ∀ h k i, flight h = some i → flight k = some i → h = k

section Shape

variable {list : lazylist_t} {chain free : List ℕ} {flight : Hpu → Option ℕ}

omit [DecidableEq Hpu] in
theorem Shape.flight_ne_EOL (hsh : Shape n list chain free flight) (hi : flight h = some i) :
    i ≠ EOL := by
  have h1 := hsh.capacity
  have h2 := hsh.flight_lt h i hi
  have h3 : NUM_SEGMENTS < EOL := by decide
  omega

end Shape

/-- The locks. -/
structure Guard (list : lazylist_t) (leaving : Hpu → Option ℕ) (holder : ℕ → Option Hpu)
    (free_holder : Option Hpu) : Prop where
  lock : ∀ i, list.lock i = 0 → holder i = none
  free_lock : list.free_head_lock = 0 → free_holder = none
  taken : ∀ h i, leaving h = some i → holder i = some h

/-- The order of the ranges in the list. -/
structure Order (n : ℕ) (left right : ℕ → ℤ) (leaving : Hpu → Option ℕ) (chain : List ℕ) :
    Prop where
  sentinel_left : left n = INT32_MIN ∧ right n = INT32_MIN
  sentinel_right : left (n + 1) = INT32_MAX ∧ right (n + 1) = INT32_MAX
  taken : ∀ h i, leaving h = some i → i ∈ chain ∧ i < n
  spaced : Spaced 0 left right (live leaving chain)

/-- The integers between the sentinels. -/
def inner : Set ℤ := Set.Ioo INT32_MIN INT32_MAX

/-- What the calls have done, against what the list covers. -/
structure History (s : shared_t Hpu) (pending : Hpu → Option lazylist_range_t) (S : Set ℤ) :
    Prop where
  proper : ∀ r ∈ s.started, r.Proper
  apart : s.started.Pairwise fun r r' => Disjoint r.values r'.values
  inserted : ∀ h r, (h, event_t.inserted r) ∈ s.log → r ∈ s.started
  begun : ∀ h r, pending h = some r → r ∈ s.started
  waits : ∀ h k r, pending h = some r → (k, event_t.inserted r) ∉ s.log
  pending_inj : ∀ h k r, pending h = some r → pending k = some r → h = k
  content : ∀ v ∈ inner, s.Inserted v ↔ v ∈ S ∨ s.Popped v
  still : ∀ v ∈ inner, v ∈ S → ¬s.Popped v
  once : (popped_ranges s.log).Pairwise fun r r' => Disjoint r.values r'.values
  popped : ∀ h r, (h, event_t.popped r) ∈ s.log → r.values ⊆ inner
  reported : ∀ h, s.ended h <+: s.events h

/-- The integers that the list covers. -/
noncomputable def shared_t.listed (s : shared_t Hpu) (chain : List ℕ) : Set ℤ :=
  covers s.list.left s.list.right (live s.leaving chain)

/-- The invariant of the shared list: its shape, who holds which lock, the order of the ranges, and
that the list holds what the calls so far make of it. -/
structure Inv (n : ℕ) (s : shared_t Hpu) (g : ghost_t Hpu) : Prop where
  shape : Shape n s.list g.chain g.free g.flight
  guard : Guard s.list s.leaving g.holder g.free_holder
  order : Order n s.list.left s.list.right s.leaving g.chain
  history : History s g.pending (s.listed g.chain)

/-! ## What an HPU counts on -/

/-- What the others leave to HPU `h`: its locks and its own node; the nodes of the list that
it has locked, up to the link of the head, and the link of the head to one of them; the
free list while it has locked it. -/
structure Rel (h : Hpu) (s : shared_t Hpu) (g : ghost_t Hpu) (s' : shared_t Hpu)
    (g' : ghost_t Hpu) : Prop where
  head : s'.list.head_idx = s.list.head_idx
  leaving : s'.leaving h = s.leaving h
  events : s'.events h = s.events h
  ended : s'.ended h = s.ended h
  flight : g'.flight h = g.flight h
  pending : g'.pending h = g.pending h
  holder : ∀ i, g.holder i = some h → g'.holder i = some h
  free_holder : g.free_holder = some h → g'.free_holder = some h
  mem : ∀ i ∈ g.chain, g.holder i = some h → i ∈ g'.chain
  left : ∀ i ∈ g.chain, g.holder i = some h → s'.list.left i = s.list.left i
  right : ∀ i ∈ g.chain, g.holder i = some h → s'.list.right i = s.list.right i
  next : ∀ i ∈ g.chain, g.holder i = some h → i ≠ s.list.head_idx →
    s'.list.next_idx i = s.list.next_idx i
  front : ∀ i ∈ g.chain, g.holder i = some h → s.list.next_idx s.list.head_idx = i →
    s'.list.next_idx s.list.head_idx = i
  own_left : ∀ i, g.flight h = some i → s'.list.left i = s.list.left i
  own_right : ∀ i, g.flight h = some i → s'.list.right i = s.list.right i
  own_next : ∀ i, g.flight h = some i → s'.list.next_idx i = s.list.next_idx i
  free : g.free_holder = some h → g'.free = g.free
  free_next : g.free_holder = some h → ∀ i ∈ g.free, s'.list.next_idx i = s.list.next_idx i

theorem Rel.refl (h : Hpu) (s : shared_t Hpu) (g : ghost_t Hpu) : Rel h s g s g where
  head := rfl
  leaving := rfl
  events := rfl
  ended := rfl
  flight := rfl
  pending := rfl
  holder _ hi := hi
  free_holder hi := hi
  mem _ hi _ := hi
  left _ _ _ := rfl
  right _ _ _ := rfl
  next _ _ _ _ := rfl
  front _ _ _ hi := hi
  own_left _ _ := rfl
  own_right _ _ := rfl
  own_next _ _ := rfl
  free _ := rfl
  free_next _ _ _ := rfl

theorem Rel.trans {s' s'' : shared_t Hpu} {g' g'' : ghost_t Hpu} (h₁ : Rel h s g s' g')
    (h₂ : Rel h s' g' s'' g'') : Rel h s g s'' g'' where
  head := h₂.head.trans h₁.head
  leaving := h₂.leaving.trans h₁.leaving
  events := h₂.events.trans h₁.events
  ended := h₂.ended.trans h₁.ended
  flight := h₂.flight.trans h₁.flight
  pending := h₂.pending.trans h₁.pending
  holder i hi := h₂.holder i (h₁.holder i hi)
  free_holder hi := h₂.free_holder (h₁.free_holder hi)
  mem i hi hh := h₂.mem i (h₁.mem i hi hh) (h₁.holder i hh)
  left i hi hh := (h₂.left i (h₁.mem i hi hh) (h₁.holder i hh)).trans (h₁.left i hi hh)
  right i hi hh := (h₂.right i (h₁.mem i hi hh) (h₁.holder i hh)).trans (h₁.right i hi hh)
  next i hi hh hn := (h₂.next i (h₁.mem i hi hh) (h₁.holder i hh) (h₁.head ▸ hn)).trans
    (h₁.next i hi hh hn)
  front i hi hh hn := by
    have := h₂.front i (h₁.mem i hi hh) (h₁.holder i hh)
    rw [h₁.head] at this
    exact this (h₁.front i hi hh hn)
  own_left i hi := (h₂.own_left i (h₁.flight.trans hi)).trans (h₁.own_left i hi)
  own_right i hi := (h₂.own_right i (h₁.flight.trans hi)).trans (h₁.own_right i hi)
  own_next i hi := (h₂.own_next i (h₁.flight.trans hi)).trans (h₁.own_next i hi)
  free hf := (h₂.free (h₁.free_holder hf)).trans (h₁.free hf)
  free_next hf i hi := (h₂.free_next (h₁.free_holder hf) i (h₁.free hf ▸ hi)).trans
    (h₁.free_next hf i hi)

/-! ## Locks -/

/-- The step of `h` keeps the invariant and what the other HPUs count on. -/
def Keeps (n : ℕ) (h : Hpu) (s : shared_t Hpu) (g : ghost_t Hpu) (s' : shared_t Hpu)
    (g' : ghost_t Hpu) : Prop :=
  Inv n s' g' ∧ ∀ k, k ≠ h → Rel k s g s' g'

/-- The state with another memory. -/
def shared_t.store (s : shared_t Hpu) (list : lazylist_t) : shared_t Hpu := { s with list := list }

namespace Inv

theorem lock (hI : Inv n s g) (h : Hpu) (hi : s.list.lock i = 0) :
    Keeps n h s g (s.store { s.list with lock := update s.list.lock i 1 })
      { g with holder := update g.holder i (some h) } := by
  have hnone := hI.guard.lock i hi
  have hne : ∀ j k, g.holder j = some k → j ≠ i := by
    rintro j k hj rfl
    simp [hnone] at hj
  refine ⟨⟨{ hI.shape with }, ⟨fun j hj => ?_, hI.guard.free_lock, fun k j hk => ?_⟩, hI.order,
    { hI.history with }⟩, fun k hk => { Rel.refl k s g with holder := fun j hj => ?_ }⟩
  · have hji : j ≠ i := by
      rintro rfl
      simp [shared_t.store] at hj
    exact (Function.update_of_ne hji _ _).trans
      (hI.guard.lock j (by simpa [shared_t.store, hji] using hj))
  · have := hI.guard.taken k j hk
    exact (Function.update_of_ne (hne j k this) _ _).trans this
  · exact (Function.update_of_ne (hne j k hj) _ _).trans hj

/-- It gives it back, unless the node is the one it takes out. -/
theorem unlock (hI : Inv n s g) (hi : g.holder i = some h) (hl : s.leaving h = none) :
    Keeps n h s g (s.store { s.list with lock := update s.list.lock i 0 })
      { g with holder := update g.holder i none } := by
  have hne : ∀ j k, g.holder j = some k → k ≠ h → j ≠ i := by
    rintro j k hj hk rfl
    exact hk (Option.some.inj (hj.symm.trans hi))
  refine ⟨⟨{ hI.shape with }, ⟨fun j hj => ?_, hI.guard.free_lock, fun k j hk => ?_⟩, hI.order,
    { hI.history with }⟩, fun k hk => { Rel.refl k s g with holder := fun j hj => ?_ }⟩
  · by_cases hji : j = i
    · exact hji ▸ Function.update_self _ _ _
    · exact (Function.update_of_ne hji _ _).trans
        (hI.guard.lock j (by simpa [shared_t.store, hji] using hj))
  · have := hI.guard.taken k j hk
    have hkh : k ≠ h := by
      rintro rfl
      exact nomatch hl.symm.trans hk
    exact (Function.update_of_ne (hne j k this hkh) _ _).trans this
  · exact (Function.update_of_ne (hne j k hj hk) _ _).trans hj

/-- An HPU takes the lock of the free list. -/
theorem lock_free (hI : Inv n s g) (h : Hpu) (hf : s.list.free_head_lock = 0) :
    Keeps n h s g (s.store { s.list with free_head_lock := 1 })
      { g with free_holder := some h } := by
  have hnone := hI.guard.free_lock hf
  refine ⟨⟨{ hI.shape with }, ⟨hI.guard.lock, fun h0 => ?_, hI.guard.taken⟩, hI.order,
    { hI.history with }⟩, fun k hk => { Rel.refl k s g with free_holder := fun hk' => ?_ }⟩
  · simp [shared_t.store] at h0
  · simp [hnone] at hk'

theorem unlock_free (hI : Inv n s g) (hf : g.free_holder = some h) :
    Keeps n h s g (s.store { s.list with free_head_lock := 0 })
      { g with free_holder := none } :=
  ⟨⟨{ hI.shape with }, ⟨hI.guard.lock, fun _ => rfl, hI.guard.taken⟩, hI.order,
    { hI.history with }⟩, fun k hk =>
      { Rel.refl k s g with
        free_holder := fun hk' => absurd (Option.some.inj (hk'.symm.trans hf)) hk }⟩

/-! ## Stores to a node of one's own, and the free list -/

theorem set_marks (hI : Inv n s g) (h : Hpu) (marks : ℕ → ℕ) :
    Keeps n h s g (s.store { s.list with marks := marks }) g :=
  ⟨⟨{ hI.shape with }, { hI.guard with }, hI.order, { hI.history with }⟩,
    fun k _ => { Rel.refl k s g with }⟩

/-- The memory changes only at the fields of node `i` that the calls look at. -/
structure OnlyNode (list list' : lazylist_t) (i : ℕ) : Prop where
  left : ∀ j, j ≠ i → list'.left j = list.left j
  right : ∀ j, j ≠ i → list'.right j = list.right j
  next : ∀ j, j ≠ i → list'.next_idx j = list.next_idx j
  head : list'.head_idx = list.head_idx
  free_head : list'.free_head_idx = list.free_head_idx
  idx : list'.idx = list.idx
  lock : list'.lock = list.lock
  free_lock : list'.free_head_lock = list.free_head_lock

section OnlyNode

variable (list : lazylist_t)

theorem OnlyNode.set_left (v : ℤ) : OnlyNode list { list with left := update list.left i v } i :=
  ⟨fun _ hj => Function.update_of_ne hj _ _, fun _ _ => rfl, fun _ _ => rfl, rfl, rfl, rfl, rfl, rfl⟩

theorem OnlyNode.set_right (v : ℤ) :
    OnlyNode list { list with right := update list.right i v } i :=
  ⟨fun _ _ => rfl, fun _ hj => Function.update_of_ne hj _ _, fun _ _ => rfl, rfl, rfl, rfl, rfl, rfl⟩

theorem OnlyNode.set_next_idx (v : ℕ) :
    OnlyNode list { list with next_idx := update list.next_idx i v } i :=
  ⟨fun _ _ => rfl, fun _ _ => rfl, fun _ hj => Function.update_of_ne hj _ _, rfl, rfl, rfl, rfl, rfl⟩

theorem OnlyNode.set_marks (marks : ℕ → ℕ) : OnlyNode list { list with marks := marks } i :=
  ⟨fun _ _ => rfl, fun _ _ => rfl, fun _ _ => rfl, rfl, rfl, rfl, rfl, rfl⟩

/-- The lock is free, so that the store changes nothing. -/
theorem OnlyNode.set_lock (h0 : list.lock i = 0) :
    OnlyNode list { list with lock := update list.lock i 0 } i :=
  ⟨fun _ _ => rfl, fun _ _ => rfl, fun _ _ => rfl, rfl, rfl, rfl,
    Function.update_eq_self_iff.mpr h0.symm, rfl⟩

end OnlyNode

/-- An HPU may store what it likes to the node that it has in flight. -/
theorem own_store (hI : Inv n s g) (hi : g.flight h = some i) {list : lazylist_t}
    (hs : OnlyNode s.list list i) : Keeps n h s g (s.store list) g := by
  obtain ⟨hsh, hg, ho, hh⟩ := hI
  have hlt := hsh.flight_lt h i hi
  have hchain := hsh.flight_chain h i hi
  have hfree := hsh.flight_free h i hi
  -- a node in flight is in nobody's way: not in the list, not free, and nobody else's
  have hne : ∀ j ∈ g.chain, j ≠ i := fun j hj => ne_of_mem_of_not_mem hj hchain
  have hlive : ∀ j ∈ live s.leaving g.chain, j ≠ i := fun j hj => hne j (live_sublist.subset hj)
  have hn : n + 1 ≠ i := by omega
  have hown (k : Hpu) (hk : k ≠ h) (j : ℕ) (hj : g.flight k = some j) : j ≠ i :=
    fun he => hk (hsh.flight_inj k h i (he ▸ hj) hi)
  have hcov : (s.store list).listed g.chain = s.listed g.chain :=
    covers_congr (fun j hj => hs.left j (hlive j hj))
      fun j hj => hs.right j (hlive j hj)
  -- the invariant, part by part, then what others rely on
  refine ⟨⟨?_, ?_, ?_, ?_⟩, fun k hk => ?_⟩
  · exact
      { hsh with
        head := hs.head.trans hsh.head
        idx := fun j hj => (congrFun hs.idx j).trans (hsh.idx j hj)
        linked := hsh.linked.frame fun j hj => hs.next j (hne j hj)
        path := by
          rw [shared_t.store, hs.free_head]
          exact hsh.path.frame fun j hj => hs.next j (ne_of_mem_of_not_mem hj hfree) }
  · exact ⟨fun j hj => hg.lock j (congrFun hs.lock j ▸ hj),
      fun hf => hg.free_lock (hs.free_lock ▸ hf), hg.taken⟩
  · exact
      { sentinel_left := ⟨(hs.left n hlt.ne').trans ho.sentinel_left.1,
          (hs.right n hlt.ne').trans ho.sentinel_left.2⟩
        sentinel_right := ⟨(hs.left (n + 1) hn).trans ho.sentinel_right.1,
          (hs.right (n + 1) hn).trans ho.sentinel_right.2⟩
        taken := ho.taken
        spaced := ho.spaced.congr (fun j hj => hs.left j (hlive j hj))
          fun j hj => hs.right j (hlive j hj) }
  · -- the list covers what it did
    rw [hcov]
    exact { hh with }
  · exact
      { Rel.refl k s g with
        head := hs.head
        left := fun j hj _ => hs.left j (hne j hj)
        right := fun j hj _ => hs.right j (hne j hj)
        next := fun j hj _ _ => hs.next j (hne j hj)
        front := fun j hj _ hf => by
          rw [shared_t.store, hs.next s.list.head_idx (by rw [hsh.head]; exact hlt.ne')]
          exact hf
        own_left := fun j hj => hs.left j (hown k hk j hj)
        own_right := fun j hj => hs.right j (hown k hk j hj)
        own_next := fun j hj => hs.next j (hown k hk j hj)
        free_next := fun _ j hj => hs.next j (ne_of_mem_of_not_mem hj hfree) }

/-- The first free node goes into flight. -/
theorem get_free (hI : Inv n s g) {m : ℕ} {F : List ℕ} (hf : g.free = m :: F)
    (hfh : g.free_holder = some h) :
    Keeps n h s g (s.store { s.list with free_head_idx := s.list.next_idx m })
      { g with free := F, flight := update g.flight h (some m) } := by
  obtain ⟨hsh, hg, ho, hh⟩ := hI
  have hm : m ∈ g.free := hf ▸ List.mem_cons_self
  have hmF : ∀ j ∈ F, j ∈ g.free := fun j hj => hf ▸ List.mem_cons_of_mem m hj
  have hpath := hf ▸ hsh.path
  -- the node in flight of `h` is now `m`, all others are as before
  have hflight {k : Hpu} {j : ℕ} (hk : update g.flight h (some m) k = some j) :
      k = h ∧ m = j ∨ k ≠ h ∧ g.flight k = some j :=
    (owner_update hk).imp_left fun he => ⟨he.1, Option.some.inj he.2⟩
  refine ⟨⟨?_, { hg with }, ho, { hh with }⟩, fun k hk => ?_⟩
  · refine
      { hsh with
        path := hpath.2.2
        free_lt := fun j hj => hsh.free_lt j (hmF j hj)
        disjoint := fun j hj hj' => hsh.disjoint hj (hmF j hj')
        flight_lt := fun k j hk => ?_, flight_chain := fun k j hk => ?_
        flight_free := fun k j hk hj => ?_, flight_inj := fun k k' j hk hk' => ?_ }
    · -- each of these for `m`, which was free, and for the others
      obtain ⟨-, rfl⟩ | ⟨-, hk⟩ := hflight hk
      · exact hsh.free_lt m hm
      · exact hsh.flight_lt k j hk
    · obtain ⟨-, rfl⟩ | ⟨-, hk⟩ := hflight hk
      · exact fun hj => hsh.disjoint hj hm
      · exact hsh.flight_chain k j hk
    · obtain ⟨-, rfl⟩ | ⟨-, hk⟩ := hflight hk
      · exact (List.nodup_cons.mp hpath.nodup).1 hj
      · exact hsh.flight_free k j hk (hmF j hj)
    · rcases hflight hk with ⟨he, hj⟩ | ⟨-, h1⟩ <;> rcases hflight hk' with ⟨he', hj'⟩ | ⟨-, h2⟩
      · exact he.trans he'.symm
      · exact absurd hm (hj ▸ hsh.flight_free k' j h2)
      · exact absurd hm (hj' ▸ hsh.flight_free k j h1)
      · exact hsh.flight_inj k k' j h1 h2
  · -- only the holder of the lock of the free list relies on that list
    have hkf : g.free_holder ≠ some k := fun he => hk (Option.some.inj (he.symm.trans hfh))
    exact
      { Rel.refl k s g with
        flight := Function.update_of_ne hk _ _
        free := fun he => absurd he hkf
        free_next := fun he => absurd he hkf }

/-- The node in flight becomes the first free one. -/
theorem put_free (hI : Inv n s g) (hi : g.flight h = some i) (hfh : g.free_holder = some h)
    (hn : s.list.next_idx i = s.list.free_head_idx) :
    Keeps n h s g (s.store { s.list with free_head_idx := i })
      { g with free := i :: g.free, flight := update g.flight h none } := by
  obtain ⟨hsh, hg, ho, hh⟩ := hI
  refine ⟨⟨?_, { hg with }, ho, { hh with }⟩, fun k hk => ?_⟩
  · refine
      { hsh with
        path := ⟨rfl, hsh.flight_ne_EOL hi, ?_⟩
        free_lt := List.forall_mem_cons.mpr ⟨hsh.flight_lt h i hi, hsh.free_lt⟩
        disjoint := fun j hj hj' => ?_
        flight_lt := fun k j hk => hsh.flight_lt k j (owner_update_none hk).2
        flight_chain := fun k j hk => hsh.flight_chain k j (owner_update_none hk).2
        flight_free := fun k j hk hj => ?_
        flight_inj := fun k k' j hk hk' =>
          hsh.flight_inj k k' j (owner_update_none hk).2 (owner_update_none hk').2 }
    · -- the free list starts with the node
      exact hn.symm ▸ hsh.path
    · -- a node is not in the list and free: not this one, which was in flight
      rcases List.mem_cons.mp hj' with rfl | hj'
      · exact hsh.flight_chain h j hi hj
      · exact hsh.disjoint hj hj'
    · -- no other node in flight is this one
      obtain ⟨hkh, h1⟩ := owner_update_none hk
      rcases List.mem_cons.mp hj with he | hj
      · exact hkh (hsh.flight_inj k h j h1 (he ▸ hi))
      · exact hsh.flight_free k j h1 hj
  · -- only the holder of the lock of the free list relies on that list
    have hkf : g.free_holder ≠ some k := fun he => hk (Option.some.inj (he.symm.trans hfh))
    exact
      { Rel.refl k s g with
        flight := Function.update_of_ne hk _ _
        free := fun he => absurd he hkf
        free_next := fun he => absurd he hkf }

end Inv

/-! ## Events -/

section Events

variable {s' : shared_t Hpu} {e : event_t} {r : lazylist_range_t} {S : Set ℤ}
  {pending : Hpu → Option lazylist_range_t}

theorem events_self (hl : s'.log = s.log ++ [(h, e)]) : s'.events h = s.events h ++ [e] := by
  rw [shared_t.events, hl, List.filterMap_append]
  simp [shared_t.events]

theorem events_of_ne {k : Hpu} (hl : s'.log = s.log ++ [(h, e)]) (hk : k ≠ h) :
    s'.events k = s.events k := by
  rw [shared_t.events, hl, List.filterMap_append]
  simp [shared_t.events, hk.symm]

theorem events_grow (hl : s'.log = s.log ++ [(h, e)]) (k : Hpu) :
    s.events k <+: s'.events k := by
  by_cases hk : k = h
  · rw [hk, events_self hl]
    exact List.prefix_append _ _
  · exact (events_of_ne hl hk).symm ▸ List.prefix_refl (s.events k)

omit [DecidableEq Hpu] in
theorem mem_popped_ranges {log : List (Hpu × event_t)} :
    r ∈ popped_ranges log ↔ ∃ k, (k, event_t.popped r) ∈ log := by
  rw [popped_ranges, List.mem_filterMap]
  constructor
  · rintro ⟨⟨k, e⟩, hm, he⟩
    cases e with
    | inserted r' => exact nomatch he
    | popped r' => exact ⟨k, Option.some.inj he ▸ hm⟩
  · rintro ⟨k, hm⟩
    exact ⟨_, hm, rfl⟩

namespace History

/-- A range that waits to be inserted shares nothing with what has been inserted. -/
theorem fresh (hh : History s pending S) (hp : pending h = some r) {v : ℤ} (hv : v ∈ r.values) :
    ¬s.Inserted v := by
  rintro ⟨k, r', hm, hv'⟩
  have hne : r ≠ r' := by
    rintro rfl
    exact hh.waits h k r hp hm
  have : Std.Symm fun r r' : lazylist_range_t => Disjoint r.values r'.values :=
    ⟨fun _ _ hd => hd.symm⟩
  have hd := hh.apart.forall (hh.begun h r hp) (hh.inserted k r' hm) hne
  exact Set.disjoint_left.mp hd hv hv'

/-- The values of a pending range lie between the sentinels. -/
theorem values_inner (hh : History s pending S) (hp : pending h = some r) : r.values ⊆ inner := by
  have hr := hh.proper r (hh.begun h r hp)
  exact fun v hv => ⟨hr.min.trans_le hv.1, lt_of_le_of_lt hv.2 hr.max⟩

/-- The store that inserts `r`. -/
theorem insert (hh : History s pending S) (hp : pending h = some r)
    (hl : s'.log = s.log ++ [(h, .inserted r)]) (hst : s'.started = s.started)
    (hen : s'.ended = s.ended) : History s' (update pending h none) (S ∪ r.values) := by
  -- the values of the range count as inserted, and nothing new as popped
  have hins (v : ℤ) : s'.Inserted v ↔ s.Inserted v ∨ v ∈ r.values := by
    simp only [shared_t.Inserted, hl, List.mem_append, List.mem_singleton, Prod.mk.injEq,
      event_t.inserted.injEq]
    constructor
    · rintro ⟨k, r', hm | ⟨-, rfl⟩, hv⟩
      · exact Or.inl ⟨k, r', hm, hv⟩
      · exact Or.inr hv
    · rintro (⟨k, r', hm, hv⟩ | hv)
      · exact ⟨k, r', Or.inl hm, hv⟩
      · exact ⟨h, r, Or.inr ⟨rfl, rfl⟩, hv⟩
  have hpop (v : ℤ) : s'.Popped v ↔ s.Popped v := by
    simp [shared_t.Popped, hl]
  refine
    { proper := hst ▸ hh.proper, apart := hst ▸ hh.apart, inserted := fun k r' hm => ?_
      begun := fun k r' hk => hst ▸ hh.begun k r' (owner_update_none hk).2
      waits := fun k j r' hk hm => ?_
      pending_inj := fun k j r' hk hj =>
        hh.pending_inj k j r' (owner_update_none hk).2 (owner_update_none hj).2
      content := fun v hv => ?_, still := fun v hv hS => ?_, once := ?_
      popped := fun k r' hm => hh.popped k r' (by simpa [hl] using hm)
      reported := fun k => hen ▸ (hh.reported k).trans (events_grow hl k) }
  · -- what has been inserted was begun
    rw [hl, List.mem_append, List.mem_singleton] at hm
    rw [hst]
    rcases hm with hm | hm
    · exact hh.inserted k r' hm
    · obtain ⟨-, rfl⟩ : k = h ∧ r' = r := by simpa using hm
      exact hh.begun h r' hp
  · -- no other call waits with this range
    obtain ⟨hkh, hk⟩ := owner_update_none hk
    rw [hl, List.mem_append, List.mem_singleton] at hm
    rcases hm with hm | hm
    · exact hh.waits k j r' hk hm
    · obtain ⟨-, rfl⟩ : j = h ∧ r' = r := by simpa using hm
      exact hkh (hh.pending_inj k h r' hk hp)
  · -- the content grows by the values
    rw [hins, hpop, hh.content v hv, Set.mem_union]
    tauto
  · -- none of them was popped before, as nobody had inserted them
    rw [hpop]
    rcases hS with hS | hr
    · exact hh.still v hv hS
    · exact fun hpv => hh.fresh hp hr ((hh.content v hv).mpr (Or.inr hpv))
  · rw [hl, popped_ranges, List.filterMap_append]
    simpa [popped_ranges] using hh.once

/-- The store that gives `r` to the caller. -/
theorem pop (hh : History s pending S) (hl : s'.log = s.log ++ [(h, .popped r)])
    (hst : s'.started = s.started) (hen : s'.ended = s.ended) (hS : r.values ⊆ S)
    (hr : r.values ⊆ inner) : History s' pending (S \ r.values) := by
  have hins (v : ℤ) : s'.Inserted v ↔ s.Inserted v := by
    simp [shared_t.Inserted, hl]
  -- the values count as popped, and nothing new as inserted
  have hpop (v : ℤ) : s'.Popped v ↔ s.Popped v ∨ v ∈ r.values := by
    simp only [shared_t.Popped, hl, List.mem_append, List.mem_singleton, Prod.mk.injEq,
      event_t.popped.injEq]
    constructor
    · rintro ⟨k, r', hm | ⟨-, rfl⟩, hv⟩
      · exact Or.inl ⟨k, r', hm, hv⟩
      · exact Or.inr hv
    · rintro (⟨k, r', hm, hv⟩ | hv)
      · exact ⟨k, r', Or.inl hm, hv⟩
      · exact ⟨h, r, Or.inr ⟨rfl, rfl⟩, hv⟩
  refine
    { proper := hst ▸ hh.proper, apart := hst ▸ hh.apart
      inserted := fun k r' hm => hst ▸ hh.inserted k r' (by simpa [hl] using hm)
      begun := fun k r' hk => hst ▸ hh.begun k r' hk
      waits := fun k j r' hk hm => hh.waits k j r' hk (by simpa [hl] using hm)
      pending_inj := hh.pending_inj, content := fun v hv => ?_, still := fun v hv hvS => ?_
      once := ?_, popped := fun k r' hm => ?_
      reported := fun k => hen ▸ (hh.reported k).trans (events_grow hl k) }
  · -- the content shrinks by the values
    rw [hins, hpop, hh.content v hv, Set.mem_sdiff]
    have := @hS v
    tauto
  · -- what is still there has not been popped
    rw [hpop]
    rintro (hpv | hvr)
    · exact hh.still v hv hvS.1 hpv
    · exact hvS.2 hvr
  · -- no value is popped twice: these were in the content until now
    rw [hl, popped_ranges, List.filterMap_append, List.pairwise_append]
    refine ⟨hh.once, List.pairwise_singleton _ _, fun r₁ h₁ r₂ h₂ => ?_⟩
    obtain rfl : r₂ = r := by simpa using h₂
    obtain ⟨k, hk⟩ := mem_popped_ranges.mp h₁
    exact Set.disjoint_left.mpr fun v hv hv' => hh.still v (hr hv') (hS hv') ⟨k, r₁, hk, hv⟩
  · rw [hl, List.mem_append, List.mem_singleton] at hm
    rcases hm with hm | hm
    · exact hh.popped k r' hm
    · obtain ⟨-, rfl⟩ : k = h ∧ r' = r := by simpa using hm
      exact hr

end History

end Events

/-- A range that waits to be inserted lies before or behind each node that counts. -/
theorem Inv.apart (hI : Inv n s g) {range : lazylist_range_t} (hp : g.pending h = some range)
    (hi : i ∈ live s.leaving g.chain) :
    s.list.right i < range.left ∨ range.right < s.list.left i := by
  by_contra hmeet
  push Not at hmeet
  have hle := (hI.history.proper range (hI.history.begun h range hp)).le
  have hne := hI.order.spaced.nonempty i hi
  -- otherwise there is an integer in both
  obtain ⟨v, hv, hv'⟩ : ∃ v, v ∈ range.values ∧ s.list.left i ≤ v ∧ v ≤ s.list.right i :=
    ⟨max range.left (s.list.left i), ⟨le_max_left _ _, max_le hle hmeet.2⟩, le_max_right _ _,
      max_le hmeet.1 hne⟩
  refine hI.history.fresh hp hv ((hI.history.content v (hI.history.values_inner hp hv)).mpr ?_)
  exact Or.inl ⟨i, hi, hv'⟩

/-- The method for `calls`. -/
def rely (Hpu : Type) [DecidableEq Hpu] (capacity : ℕ) :
    Rely (calls Hpu capacity) (ghost_t Hpu) where
  may h _ a s := covered h a s
  Inv := Inv (capacity - 2)
  Rel := Rel
  refl := Rel.refl
  trans := Rel.trans

end Pspin.Lazylist
