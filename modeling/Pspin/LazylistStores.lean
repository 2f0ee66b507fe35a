/-
`lazylist.h` used by several HPUs: the stores to the list.

An insertion stores to two neighbours that it has locked, a removal to the link of the
head and to the front, which it has locked. Each of these stores keeps the invariant and
what the other HPUs count on.
-/
import Pspin.LazylistRely

set_option autoImplicit false

namespace Pspin.Lazylist

open Interleave LinkedPath RangeList
open Function (update)

variable {Hpu : Type} [DecidableEq Hpu] {s : shared_t Hpu} {g : ghost_t Hpu} {h : Hpu}
  {n pred curr : ℕ} {range : lazylist_range_t}

/-- Two neighbours of the list that HPU `h` has locked. -/
structure Window (h : Hpu) (pred curr : ℕ) (s : shared_t Hpu) (g : ghost_t Hpu) : Prop where
  pred_held : g.holder pred = some h
  curr_held : g.holder curr = some h
  pred_mem : pred ∈ g.chain
  curr_mem : curr ∈ g.chain
  next : s.list.next_idx pred = curr

/-- The range falls between the two nodes. -/
structure Gap (pred curr : ℕ) (range : lazylist_range_t) (s : shared_t Hpu) : Prop where
  left : s.list.right pred < range.left
  right : range.right < s.list.left curr

/-! ## Where the nodes stand -/

omit [DecidableEq Hpu] in
theorem Order.bounds {left right : ℕ → ℤ} {leaving : Hpu → Option ℕ} {l : List ℕ} {i : ℕ}
    (ho : Order n left right leaving (n :: (l ++ [n + 1])))
    (hi : i ∈ live leaving l) : INT32_MIN < left i ∧ left i ≤ right i ∧ right i < INT32_MAX := by
  have hn : ∀ h, leaving h ≠ some n := fun h he => (ho.taken h n he).2.false
  have hn' : ∀ h, leaving h ≠ some (n + 1) := fun h he => by
    have := (ho.taken h _ he).2
    omega
  have hs := ho.spaced
  rw [live_cons hn, live_append, live_cons hn'] at hs
  obtain ⟨-, hs', hlt⟩ := Spaced.cons_iff.mp hs
  have h1 := hlt i (List.mem_append_left _ hi)
  have h2 := (Spaced.append_iff.mp hs').2.2 i hi (n + 1) List.mem_cons_self
  have h3 := (Spaced.append_iff.mp hs').1.nonempty i hi
  rw [ho.sentinel_left.2] at h1
  rw [ho.sentinel_right.1] at h2
  exact ⟨by omega, h3, by omega⟩

namespace Window

variable {X Y : List ℕ}

theorem split (hw : Window h pred curr s g) (hI : Inv n s g) :
    ∃ X Y, g.chain = X ++ pred :: curr :: Y := by
  obtain ⟨X, Z, hX⟩ := List.append_of_mem hw.pred_mem
  have hl : Path s.list.next_idx EOL n (X ++ pred :: Z) := hX ▸ hI.shape.linked
  have hr := hl.rest
  rw [hw.next] at hr
  cases Z with
  | nil => exact absurd hr (hI.shape.linked.ne_fin hw.curr_mem)
  | cons c Z =>
      obtain rfl := hr.1
      exact ⟨X, Z, hX⟩

/-- No HPU is taking out a node that this one has locked. -/
theorem not_leaving {i : ℕ} (hI : Inv n s g) (hi : g.holder i = some h) (hl : s.leaving h = none) :
    ∀ k, s.leaving k ≠ some i := by
  intro k hk
  obtain rfl : h = k := Option.some.inj (hi.symm.trans (hI.guard.taken k i hk))
  exact nomatch hl.symm.trans hk

theorem live_split (hw : Window h pred curr s g) (hI : Inv n s g) (hl : s.leaving h = none)
    (hX : g.chain = X ++ pred :: curr :: Y) :
    live s.leaving g.chain = live s.leaving X ++ pred :: curr :: live s.leaving Y := by
  rw [hX, live_append, live_cons (not_leaving hI hw.pred_held hl),
    live_cons (not_leaving hI hw.curr_held hl)]

omit [DecidableEq Hpu] in
theorem distinct (hd : (X ++ pred :: curr :: Y).Nodup) :
    (pred ∉ X ∧ pred ∉ Y) ∧ (curr ∉ X ∧ curr ∉ Y) ∧ pred ≠ curr := by
  rw [List.nodup_middle, List.nodup_cons] at hd
  obtain ⟨hp, hd⟩ := hd
  rw [List.nodup_middle, List.nodup_cons] at hd
  simp only [List.mem_append, List.mem_cons, not_or] at hp hd
  exact ⟨⟨hp.1, hp.2.2⟩, hd.1, hp.2.1⟩

/-- The two nodes among those that count. -/
theorem live (hw : Window h pred curr s g) (hI : Inv n s g) (hl : s.leaving h = none) :
    ∃ X Y, live s.leaving g.chain = X ++ pred :: curr :: Y ∧
      Spaced 0 s.list.left s.list.right (X ++ pred :: curr :: Y) ∧
      (X ++ pred :: curr :: Y).Nodup := by
  obtain ⟨X, Y, hX⟩ := hw.split hI
  have hlive := hw.live_split hI hl hX
  refine ⟨_, _, hlive, hlive ▸ hI.order.spaced, ?_⟩
  rw [← hlive]
  exact hI.shape.linked.nodup.sublist live_sublist

end Window

/-! ## Links -/

section Links

variable {list : lazylist_t} {X Y chain free : List ℕ} {flight : Hpu → Option ℕ} {p c m : ℕ}

/-- The two ends of a list, seen from two neighbours. -/
theorem ends_iff {e : ℕ} : (∃ l, X ++ p :: c :: Y = n :: (l ++ [e])) ↔
    (X ++ [p]).head? = some n ∧ (c :: Y).getLast? = some e := by
  constructor
  · rintro ⟨l, hl⟩
    have hh := congrArg List.head? hl
    have ht := congrArg List.getLast? hl
    rw [← List.cons_append, List.getLast?_concat] at ht
    constructor
    · cases X <;> simpa using hh
    · simpa [List.getLast?_append] using ht
  · rintro ⟨hh, ht⟩
    obtain ⟨Z, hZ⟩ := List.getLast?_eq_some_iff.mp ht
    obtain ⟨W, hW⟩ := List.head?_eq_some_iff.mp hh
    refine ⟨W ++ Z, ?_⟩
    rw [List.append_cons, hW, hZ]
    simp

theorem Shape.link (hsh : Shape n list chain free flight) (hX : chain = X ++ p :: c :: Y)
    (hm : flight h = some m) (hnext : list.next_idx m = c) :
    Shape n { list with next_idx := update list.next_idx p m } (X ++ p :: m :: c :: Y) free
      (update flight h none) := by
  have hp : p ∈ chain := by simp [hX]
  have hmc := hsh.flight_chain h m hm
  have hpc : list.next_idx p = c := Path.next (hX ▸ hsh.linked)
  have hmem : ∀ i ∈ X ++ p :: m :: c :: Y, i = m ∨ i ∈ chain := by
    intro i hi
    rw [hX]
    simp only [List.mem_append, List.mem_cons] at hi ⊢
    tauto
  refine
    { hsh with
      linked := ?_
      ends := ?_
      chain_le := fun i hi => ?_
      path := hsh.path.update_of_notMem (hsh.disjoint hp)
      disjoint := fun i hi hi' => ?_
      flight_lt := fun k i hk => hsh.flight_lt k i (owner_update_none hk).2
      flight_chain := fun k i hk hi => ?_
      flight_free := fun k i hk => hsh.flight_free k i (owner_update_none hk).2
      flight_inj := fun k k' i hk hk' =>
        hsh.flight_inj k k' i (owner_update_none hk).2 (owner_update_none hk').2 }
  · -- the link of `m` is already what it has to be
    have := Path.insert (c := m) (hX ▸ hsh.linked) (hX ▸ hmc) (hsh.flight_ne_EOL hm)
    rwa [hpc, (Function.update_eq_self_iff (f := list.next_idx)).mpr hnext.symm] at this
  · obtain ⟨hh, ht⟩ := ends_iff.mp (hX ▸ hsh.ends)
    exact ends_iff.mpr ⟨hh, by rwa [List.getLast?_cons_cons]⟩
  · rcases hmem i hi with rfl | hi
    · have := hsh.flight_lt h i hm
      omega
    · exact hsh.chain_le i hi
  · rcases hmem i hi with rfl | hi
    · exact hsh.flight_free h i hm hi'
    · exact hsh.disjoint hi hi'
  · obtain ⟨hkh, hk⟩ := owner_update_none hk
    rcases hmem i hi with rfl | hi
    · exact hkh (hsh.flight_inj k h i hk hm)
    · exact hsh.flight_chain k i hk hi

theorem Shape.unlink (hsh : Shape n list chain free flight) (hX : chain = X ++ p :: c :: Y)
    (hc : c < n) :
    Shape n { list with next_idx := update list.next_idx p (list.next_idx c) } (X ++ p :: Y) free
      (update flight h (some c)) := by
  have hp : p ∈ chain := by simp [hX]
  have hcm : c ∈ chain := by simp [hX]
  have hcf := hsh.disjoint hcm
  -- the node occurs once, so it is gone from the chain
  have hcX : c ∉ X ++ p :: Y := by
    have hd := hsh.linked.nodup
    rw [hX, List.append_cons, List.nodup_middle, List.nodup_cons] at hd
    simpa using hd.1
  have hmem : ∀ i ∈ X ++ p :: Y, i ∈ chain := by
    intro i hi
    rw [hX]
    simp only [List.mem_append, List.mem_cons] at hi ⊢
    tauto
  -- the node is now in flight for `h`
  refine
    { hsh with
      linked := Path.remove (hX ▸ hsh.linked)
      ends := ?_
      chain_le := fun i hi => hsh.chain_le i (hmem i hi)
      path := hsh.path.update_of_notMem (hsh.disjoint hp)
      disjoint := fun i hi => hsh.disjoint (hmem i hi)
      flight_lt := fun k i hk => ?_
      flight_chain := fun k i hk hi => ?_
      flight_free := fun k i hk => ?_
      flight_inj := fun k k' i hk hk' => ?_ }
  · -- the chain still ends with the right sentinel, which is not the node
    obtain ⟨hh, ht⟩ := ends_iff.mp (hX ▸ hsh.ends)
    cases Y with
    | nil =>
        obtain rfl : c = n + 1 := by simpa using ht
        omega
    | cons d Y => exact ends_iff.mpr ⟨hh, by rwa [List.getLast?_cons_cons] at ht⟩
  · -- each of these for the node, which was in the chain, and for the others
    obtain ⟨-, hi⟩ | ⟨-, hk⟩ := owner_update hk
    · exact Option.some.inj hi ▸ hc
    · exact hsh.flight_lt k i hk
  · obtain ⟨-, he⟩ | ⟨-, hk⟩ := owner_update hk
    · exact hcX (Option.some.inj he ▸ hi)
    · exact hsh.flight_chain k i hk (hmem i hi)
  · obtain ⟨-, he⟩ | ⟨-, hk⟩ := owner_update hk
    · exact Option.some.inj he ▸ hcf
    · exact hsh.flight_free k i hk
  · have hnot (j : Hpu) (hj : flight j = some c) : False := hsh.flight_chain j c hj hcm
    rcases owner_update hk with ⟨he, hi⟩ | ⟨-, h1⟩ <;>
      rcases owner_update hk' with ⟨he', hi'⟩ | ⟨-, h2⟩
    · exact he.trans he'.symm
    · exact (hnot k' (Option.some.inj hi ▸ h2)).elim
    · exact (hnot k (Option.some.inj hi' ▸ h1)).elim
    · exact hsh.flight_inj k k' i h1 h2

end Links

/-! ## Stores that insert

The range is put into the ranges of the two nodes. Where both are joined, the second one is
to be taken out from then on. -/

namespace Inv

variable {X Y : List ℕ} {list : lazylist_t} {to_delete : Option ℕ}

/-- The memory changes only at the ranges of the two nodes, and at marks. -/
structure OnlyRanges (pred curr : ℕ) (list list' : lazylist_t) : Prop where
  head : list'.head_idx = list.head_idx
  free_head : list'.free_head_idx = list.free_head_idx
  free_lock : list'.free_head_lock = list.free_head_lock
  idx : list'.idx = list.idx
  lock : list'.lock = list.lock
  next : list'.next_idx = list.next_idx
  left : ∀ i, i ≠ pred → i ≠ curr → list'.left i = list.left i
  right : ∀ i, i ≠ pred → i ≠ curr → list'.right i = list.right i

theorem insert_store (hI : Inv n s g) (hw : Window h pred curr s g)
    (hp : g.pending h = some range) (hs : OnlyRanges pred curr s.list list)
    (hd : ∀ i, to_delete = some i → i = curr)
    (ho : Order n list.left list.right (update s.leaving h to_delete) g.chain)
    (hc : covers list.left list.right (live (update s.leaving h to_delete) g.chain) =
      s.listed g.chain ∪ range.values) :
    Keeps n h s g ((s.store list).record h (.inserted range to_delete))
      { g with pending := update g.pending h none } := by
  obtain ⟨hsh, hg, -, hh⟩ := hI
  have hlog : ((s.store list).record h (.inserted range to_delete)).log =
      s.log ++ [(h, .inserted range)] := rfl
  -- others hold neither of the two nodes
  have held (k : Hpu) (hk : k ≠ h) (i : ℕ) (hi : g.holder i = some k) : i ≠ pred ∧ i ≠ curr := by
    refine ⟨?_, ?_⟩ <;> rintro rfl
    · exact hk (Option.some.inj (hi.symm.trans hw.pred_held))
    · exact hk (Option.some.inj (hi.symm.trans hw.curr_held))
  -- and have neither in flight
  have own (k : Hpu) (i : ℕ) (hi : g.flight k = some i) : i ≠ pred ∧ i ≠ curr := by
    have := hsh.flight_chain k i hi
    exact ⟨fun he => this (he ▸ hw.pred_mem), fun he => this (he ▸ hw.curr_mem)⟩
  refine ⟨⟨?_, ⟨?_, ?_, fun k i hk => ?_⟩, ho, ?_⟩, fun k hk => ?_⟩
  · -- shape: the links are as before
    exact
      { hsh with
        head := hs.head.trans hsh.head
        idx := fun i hi => (congrFun hs.idx i).trans (hsh.idx i hi)
        linked := hsh.linked.frame fun i _ => congrFun hs.next i
        path := by
          change Path list.next_idx EOL list.free_head_idx g.free
          rw [hs.free_head, hs.next]
          exact hsh.path }
  · -- the locks are as before
    exact fun i hi => hg.lock i (congrFun hs.lock i ▸ hi)
  · exact fun hf => hg.free_lock (hs.free_lock ▸ hf)
  · -- a node that `h` takes out is the one whose lock it has
    change update s.leaving h to_delete k = some i at hk
    by_cases hkh : k = h
    · rw [hkh, Function.update_self] at hk
      rw [hd i hk, hkh]
      exact hw.curr_held
    · rw [Function.update_of_ne hkh] at hk
      exact hg.taken k i hk
  · -- the history: the range is what `covers` gains
    change History _ (update g.pending h none)
      (covers list.left list.right (live (update s.leaving h to_delete) g.chain))
    rw [hc]
    exact hh.insert hp hlog rfl rfl
  · -- what others rely on is about nodes that they hold or have in flight
    exact
      { Rel.refl k s g with
        head := hs.head
        leaving := Function.update_of_ne hk _ _
        events := events_of_ne hlog hk
        pending := Function.update_of_ne hk _ _
        left := fun i _ hi => hs.left i (held k hk i hi).1 (held k hk i hi).2
        right := fun i _ hi => hs.right i (held k hk i hi).1 (held k hk i hi).2
        next := fun i _ _ _ => congrFun hs.next i
        front := fun i _ _ hi => (congrFun hs.next _).trans hi
        own_left := fun i hi => hs.left i (own k i hi).1 (own k i hi).2
        own_right := fun i hi => hs.right i (own k i hi).1 (own k i hi).2
        own_next := fun i _ => congrFun hs.next i
        free_next := fun _ i _ => congrFun hs.next i }

/-- A node that is extended at its end is not a sentinel. -/
theorem inner_of_right (hI : Inv n s g) (hmax : range.right < INT32_MAX)
    (hle : range.left ≤ range.right) (hl : s.list.right pred + 1 = range.left)
    (hl' : INT32_MIN < s.list.left pred) : n ≠ pred ∧ n + 1 ≠ pred := by
  refine ⟨?_, ?_⟩ <;> rintro rfl
  · exact hl'.ne' hI.order.sentinel_left.1
  · rw [hI.order.sentinel_right.2] at hl
    omega

/-- A node that is extended at its start is not a sentinel. -/
theorem inner_of_left (hI : Inv n s g) (hmin : INT32_MIN < range.left)
    (hle : range.left ≤ range.right) (hr : range.right + 1 = s.list.left curr)
    (hr' : s.list.left curr < INT32_MAX) : n ≠ curr ∧ n + 1 ≠ curr := by
  refine ⟨?_, ?_⟩ <;> rintro rfl
  · rw [hI.order.sentinel_left.1] at hr
    omega
  · exact hr'.ne hI.order.sentinel_right.1

/-- Both nodes are joined. -/
theorem joined (hI : Inv n s g) (hw : Window h pred curr s g) (hp : g.pending h = some range)
    (hlv : s.leaving h = none) (hl : s.list.right pred + 1 = range.left)
    (hl' : INT32_MIN < s.list.left pred) (hr : range.right + 1 = s.list.left curr)
    (hr' : s.list.left curr < INT32_MAX) :
    Keeps n h s g
      ((s.store { s.list with right := update s.list.right pred (s.list.right curr) }).record h
        (.inserted range (some curr)))
      { g with pending := update g.pending h none } := by
  have hrange := hI.history.proper range (hI.history.begun h range hp)
  have hle := hrange.le
  -- the two nodes are neighbours among those that count
  obtain ⟨X, Y, hlive, hs, hnd⟩ := hw.live hI hlv
  obtain ⟨⟨hpX, hpY⟩, ⟨hcX, hcY⟩, hpc⟩ := Window.distinct hnd
  -- `curr` no longer counts, since `h` takes it out
  have hlive' : live (update s.leaving h (some curr)) g.chain = X ++ pred :: Y := by
    rw [List.append_cons]
    refine live_leave hlv (by rw [hlive, List.append_cons]) ?_
    simp only [List.mem_append, List.mem_singleton, not_or]
    exact ⟨⟨hcX, hpc.symm⟩, hcY⟩
  -- the ends of the two nodes, and that neither is a sentinel
  obtain ⟨-, hpcY, -⟩ := Spaced.append_iff.mp hs
  obtain ⟨hpp, hcY', hpd⟩ := Spaced.cons_iff.mp hpcY
  obtain ⟨hcc, -, hcd⟩ := Spaced.cons_iff.mp hcY'
  have hpcl := hpd curr List.mem_cons_self
  obtain ⟨hpn, hpn'⟩ := hI.inner_of_right hrange.max hle hl hl'
  obtain ⟨hcn, hcn'⟩ := hI.inner_of_left hrange.min hle hr hr'
  have hclt : curr < n := by
    have := hI.shape.chain_le curr hw.curr_mem
    omega
  refine hI.insert_store hw hp
    ⟨rfl, rfl, rfl, rfl, rfl, rfl, fun _ _ _ => rfl, fun i hi _ => Function.update_of_ne hi _ _⟩
    (fun i hi => (Option.some.inj hi).symm) ⟨?_, ?_, fun k i hk => ?_, ?_⟩ ?_
  · -- the sentinels are as before
    exact ⟨hI.order.sentinel_left.1,
      (Function.update_of_ne hpn _ _).trans hI.order.sentinel_left.2⟩
  · exact ⟨hI.order.sentinel_right.1,
      (Function.update_of_ne hpn' _ _).trans hI.order.sentinel_right.2⟩
  · rcases owner_update hk with ⟨-, he⟩ | ⟨-, hk⟩
    · exact Option.some.inj he ▸ ⟨hw.curr_mem, hclt⟩
    · exact hI.order.taken k i hk
  · -- `pred` may reach up to the end of `curr`, since `curr` does not count any more
    rw [hlive']
    refine (hs.sublist (((List.sublist_cons_self curr _).cons_cons pred).append_left _)).update_hi
      hpX hpY ?_ hcd
    omega
  · -- the values are those of the two nodes and the range between them
    rw [hlive', covers_update_hi hpX hpY, shared_t.listed, hlive, covers_put, covers_put,
      lazylist_range_t.values, Set.union_right_comm,
      ← Icc_join hpp hl (show range.left ≤ s.list.right curr by omega), ← Icc_join hle hr hcc]
    ac_rfl

/-- The first node is extended. -/
theorem grown_right (hI : Inv n s g) (hw : Window h pred curr s g) (hp : g.pending h = some range)
    (hlv : s.leaving h = none) (hl : s.list.right pred + 1 = range.left)
    (hl' : INT32_MIN < s.list.left pred) (hr : range.right < s.list.left curr) :
    Keeps n h s g
      ((s.store { s.list with right := update s.list.right pred range.right }).record h
        (.inserted range none))
      { g with pending := update g.pending h none } := by
  have hrange := hI.history.proper range (hI.history.begun h range hp)
  have hle := hrange.le
  obtain ⟨X, Y, hlive, hs, hnd⟩ := hw.live hI hlv
  -- `pred` is one node of those that count, and nobody is taken out
  obtain ⟨⟨hpX, hpY⟩, -, hpc⟩ := Window.distinct hnd
  have hpY' : pred ∉ curr :: Y := by
    rw [List.mem_cons, not_or]
    exact ⟨hpc, hpY⟩
  have hleave : update s.leaving h none = s.leaving := Function.update_eq_self_iff.mpr hlv.symm
  obtain ⟨-, hpcY, -⟩ := Spaced.append_iff.mp hs
  obtain ⟨hpp, hcY, -⟩ := Spaced.cons_iff.mp hpcY
  obtain ⟨hpn, hpn'⟩ := hI.inner_of_right hrange.max hle hl hl'
  refine hI.insert_store hw hp
    ⟨rfl, rfl, rfl, rfl, rfl, rfl, fun _ _ _ => rfl, fun i hi _ => Function.update_of_ne hi _ _⟩
    nofun ⟨?_, ?_, ?_, ?_⟩ ?_
  · -- the sentinels are as before
    exact ⟨hI.order.sentinel_left.1,
      (Function.update_of_ne hpn _ _).trans hI.order.sentinel_left.2⟩
  · exact ⟨hI.order.sentinel_right.1,
      (Function.update_of_ne hpn' _ _).trans hI.order.sentinel_right.2⟩
  · rw [hleave]
    exact hI.order.taken
  · -- `pred` still ends before `curr` starts
    rw [hleave, hlive]
    refine hs.update_hi hpX hpY' (by omega) ?_
    exact Spaced.lt_lo (X := []) le_rfl hcY (by omega)
  · -- the values of `pred` grow by those of the range
    rw [hleave, hlive, covers_update_hi hpX hpY', shared_t.listed, hlive,
      covers_put (p := pred), lazylist_range_t.values, Set.union_assoc, Icc_join hpp hl hle]

/-- The second node is extended. -/
theorem grown_left (hI : Inv n s g) (hw : Window h pred curr s g) (hp : g.pending h = some range)
    (hlv : s.leaving h = none) (hl : s.list.right pred < range.left)
    (hr : range.right + 1 = s.list.left curr) (hr' : s.list.left curr < INT32_MAX) :
    Keeps n h s g
      ((s.store { s.list with left := update s.list.left curr range.left }).record h
        (.inserted range none))
      { g with pending := update g.pending h none } := by
  have hrange := hI.history.proper range (hI.history.begun h range hp)
  have hle := hrange.le
  obtain ⟨X, Y, hlive, hs, hnd⟩ := hw.live hI hlv
  -- `curr` is one node of those that count, and nobody is taken out
  obtain ⟨-, ⟨hcX, hcY⟩, hpc⟩ := Window.distinct hnd
  have hcX' : curr ∉ X ++ [pred] := by
    rw [List.mem_append, List.mem_singleton, not_or]
    exact ⟨hcX, hpc.symm⟩
  have hleave : update s.leaving h none = s.leaving := Function.update_eq_self_iff.mpr hlv.symm
  rw [List.append_cons] at hlive hs
  obtain ⟨hsX, hcY', -⟩ := Spaced.append_iff.mp hs
  obtain ⟨hcc, -, -⟩ := Spaced.cons_iff.mp hcY'
  obtain ⟨hcn, hcn'⟩ := hI.inner_of_left hrange.min hle hr hr'
  refine hI.insert_store hw hp
    ⟨rfl, rfl, rfl, rfl, rfl, rfl, fun i _ hi => Function.update_of_ne hi _ _, fun _ _ _ => rfl⟩
    nofun ⟨?_, ?_, ?_, ?_⟩ ?_
  · -- the sentinels are as before
    exact ⟨(Function.update_of_ne hcn _ _).trans hI.order.sentinel_left.1,
      hI.order.sentinel_left.2⟩
  · exact ⟨(Function.update_of_ne hcn' _ _).trans hI.order.sentinel_right.1,
      hI.order.sentinel_right.2⟩
  · rw [hleave]
    exact hI.order.taken
  · -- `curr` still starts behind the end of `pred`
    rw [hleave, hlive]
    refine hs.update_lo hcX' hcY (by omega) fun d hd => ?_
    have := hsX.hi_lt (Y := []) le_rfl hl d hd
    omega
  · -- the values of `curr` grow by those of the range
    rw [hleave, hlive, covers_update_lo hcX' hcY, shared_t.listed, hlive, covers_put,
      lazylist_range_t.values, ← Icc_join hle hr hcc, Set.union_assoc,
      Set.union_comm (Set.Icc range.left _)]

/-! ## Stores to links -/

omit [DecidableEq Hpu] in
/-- A node that nobody takes out counts where it is linked. -/
theorem live_link {leaving : Hpu → Option ℕ} {m : ℕ} (hp : ∀ k, leaving k ≠ some pred)
    (hm : ∀ k, leaving k ≠ some m) (hc : ∀ k, leaving k ≠ some curr) :
    live leaving (X ++ pred :: m :: curr :: Y) =
      (live leaving X ++ [pred]) ++ m :: curr :: live leaving Y := by
  rw [← List.append_cons, live_append, live_cons hp, live_cons hm, live_cons hc]

/-- The nodes that were there stay in the list. -/
theorem mem_link {m i : ℕ} (hi : i ∈ X ++ pred :: curr :: Y) : i ∈ X ++ pred :: m :: curr :: Y := by
  simp only [List.mem_append, List.mem_cons] at hi ⊢
  tauto

/-- What the others rely on does not change when a node is linked: the link of `pred` is the
only one that does, and nobody else holds `pred` or `curr`. -/
theorem linked_rel (hI : Inv n s g) (hw : Window h pred curr s g) {m : ℕ}
    (hX : g.chain = X ++ pred :: curr :: Y) {k : Hpu} (hk : k ≠ h) :
    Rel k s g
      ((s.store { s.list with next_idx := update s.list.next_idx pred m }).record h
        (.inserted range none))
      { g with
        chain := X ++ pred :: m :: curr :: Y
        flight := update g.flight h none
        pending := update g.pending h none } := by
  have hne {i : ℕ} (hi : g.holder i = some k) : i ≠ pred ∧ i ≠ curr := by
    refine ⟨?_, ?_⟩ <;> rintro rfl
    · exact hk (Option.some.inj (hi.symm.trans hw.pred_held))
    · exact hk (Option.some.inj (hi.symm.trans hw.curr_held))
  have hlog : ((s.store { s.list with next_idx := update s.list.next_idx pred m }).record h
      (.inserted range none)).log = s.log ++ [(h, .inserted range)] := rfl
  exact
    { Rel.refl k s g with
      leaving := Function.update_of_ne hk _ _
      events := events_of_ne hlog hk
      flight := Function.update_of_ne hk _ _
      pending := Function.update_of_ne hk _ _
      mem := fun i hi _ => mem_link (hX ▸ hi)
      next := fun i _ hi _ => Function.update_of_ne (hne hi).1 _ _
      front := fun i _ hi hf => by
        -- the link of the head does not change, as it points to no node of this HPU
        refine (Function.update_of_ne ?_ _ _).trans hf
        rintro rfl
        exact (hne hi).2 (hf.symm.trans hw.next)
      own_next := fun i hi =>
        Function.update_of_ne
          (ne_of_mem_of_not_mem hw.pred_mem (hI.shape.flight_chain k i hi)).symm _ _
      free_next := fun _ i hi =>
        Function.update_of_ne (ne_of_mem_of_not_mem hi (hI.shape.disjoint hw.pred_mem)) _ _ }

/-- A node with the range is linked behind the first node. -/
theorem linked (hI : Inv n s g) (hw : Window h pred curr s g) (hp : g.pending h = some range)
    (hlv : s.leaving h = none) (hgap : Gap pred curr range s) {m : ℕ} (hm : g.flight h = some m)
    (hleft : s.list.left m = range.left) (hright : s.list.right m = range.right)
    (hnext : s.list.next_idx m = curr) (hX : g.chain = X ++ pred :: curr :: Y) :
    Keeps n h s g
      ((s.store { s.list with next_idx := update s.list.next_idx pred m }).record h
        (.inserted range none))
      { g with
        chain := X ++ pred :: m :: curr :: Y
        flight := update g.flight h none
        pending := update g.pending h none } := by
  have hpl := Window.not_leaving hI hw.pred_held hlv
  have hcl := Window.not_leaving hI hw.curr_held hlv
  have hs := hI.order.spaced
  have hlive := hw.live_split hI hlv hX
  rw [List.append_cons] at hlive
  rw [hlive] at hs
  refine ⟨?_, fun k hk => linked_rel hI hw hX hk⟩
  obtain ⟨hsh, hg, ho, hh⟩ := hI
  have hrange := hh.proper range (hh.begun h range hp)
  have hgl := hgap.left
  have hgr := hgap.right
  have hle := hrange.le
  have hleave : update s.leaving h none = s.leaving := Function.update_eq_self_iff.mpr hlv.symm
  have hlog : ((s.store { s.list with next_idx := update s.list.next_idx pred m }).record h
      (.inserted range none)).log = s.log ++ [(h, .inserted range)] := rfl
  -- `m` is in no list, so no HPU is taking it out
  have hml : ∀ k, s.leaving k ≠ some m :=
    fun k hk => hsh.flight_chain h m hm (ho.taken k m hk).1
  have hlive' := live_link (X := X) (Y := Y) hpl hml hcl
  refine ⟨hsh.link hX hm hnext, ⟨hg.lock, hg.free_lock, ?_⟩,
    ⟨ho.sentinel_left, ho.sentinel_right, ?_, ?_⟩, ?_⟩
  · change ∀ k i, update s.leaving h none k = some i → g.holder i = some k
    rw [hleave]
    exact hg.taken
  · change ∀ k i, update s.leaving h none k = some i → i ∈ X ++ pred :: m :: curr :: Y ∧ i < n
    rw [hleave]
    exact fun k i hi => (ho.taken k i hi).imp_left fun hi => mem_link (hX ▸ hi)
  · -- the range lies in the gap, so all that count are apart
    change Spaced 0 s.list.left s.list.right
      (live (update s.leaving h none) (X ++ pred :: m :: curr :: Y))
    rw [hleave, hlive']
    refine hs.put (by omega) (fun d hd => ?_) fun d hd => ?_
    · have := (Spaced.append_iff.mp hs).1.hi_lt (Y := []) le_rfl hgl d hd
      omega
    · have := (Spaced.append_iff.mp hs).2.1.lt_lo (X := []) le_rfl hgr d hd
      omega
  · change History _ (update g.pending h none) (covers s.list.left s.list.right
      (live (update s.leaving h none) (X ++ pred :: m :: curr :: Y)))
    rw [hleave, hlive', covers_put, ← hlive, hleft, hright]
    exact hh.insert hp hlog rfl rfl

/-- The nodes that stay when `curr` is unlinked. -/
theorem mem_unlink {i : ℕ} (hi : i ∈ X ++ pred :: curr :: Y) (hic : i ≠ curr) : i ∈ X ++ pred :: Y := by
  simp only [List.mem_append, List.mem_cons] at hi ⊢
  tauto

/-- The nodes that count are the same, since the one that goes did not count any more. -/
theorem live_unlink {leaving : Hpu → Option ℕ} (hlv : leaving h = some curr)
    (hc : curr ∉ X ++ pred :: Y) :
    live (update leaving h none) (X ++ pred :: Y) = live leaving (X ++ pred :: curr :: Y) := by
  have hsame : live (update leaving h none) (X ++ pred :: Y) = live leaving (X ++ pred :: Y) := by
    refine live_update (fun i hi he => ?_) nofun
    exact hc (Option.some.inj (hlv.symm.trans he) ▸ hi)
  have hpart (Z : List ℕ) : live leaving (X ++ pred :: Z) =
      live leaving (X ++ [pred]) ++ live leaving Z := by
    rw [List.append_cons, live_append]
  rw [hsame, hpart Y, hpart (curr :: Y), live_cons_leaving hlv]

/-- What the others rely on does not change when a node is unlinked: they do not hold it, and
the link that changes is that of the head or of a node that `h` holds. -/
theorem unlinked_rel (hI : Inv n s g) (hp : pred = n ∨ g.holder pred = some h)
    (hlv : s.leaving h = some curr) (hX : g.chain = X ++ pred :: curr :: Y) {k : Hpu} (hk : k ≠ h) :
    Rel k s g
      ((s.store { s.list with
        next_idx := update s.list.next_idx pred (s.list.next_idx curr) }).record h .unlinked)
      { g with chain := X ++ pred :: Y, flight := update g.flight h (some curr) } := by
  have hpm : pred ∈ g.chain := by simp [hX]
  have hnext : s.list.next_idx pred = curr := Path.next (hX ▸ hI.shape.linked)
  have hne {i : ℕ} (hi : g.holder i = some k) : i ≠ curr := by
    rintro rfl
    exact hk (Option.some.inj (hi.symm.trans (hI.guard.taken h i hlv)))
  have hnp {i : ℕ} (hi : g.holder i = some k) (hin : i ≠ n) : i ≠ pred := by
    rintro rfl
    exact hk (Option.some.inj (hi.symm.trans (hp.resolve_left hin)))
  exact
    { Rel.refl k s g with
      leaving := Function.update_of_ne hk _ _
      flight := Function.update_of_ne hk _ _
      mem := fun i hi hki => mem_unlink (hX ▸ hi) (hne hki)
      next := fun i _ hi hin => Function.update_of_ne (hnp hi (hI.shape.head ▸ hin)) _ _
      front := fun i _ hi hf => by
        refine (Function.update_of_ne ?_ _ _).trans hf
        rintro rfl
        exact hne hi (hf.symm.trans hnext)
      own_next := fun i hi =>
        Function.update_of_ne (ne_of_mem_of_not_mem hpm (hI.shape.flight_chain k i hi)).symm _ _
      free_next := fun _ i hi =>
        Function.update_of_ne (ne_of_mem_of_not_mem hi (hI.shape.disjoint hpm)) _ _ }

/-- The node that is to be taken out is unlinked. -/
theorem unlinked (hI : Inv n s g) (hp : pred = n ∨ g.holder pred = some h)
    (hlv : s.leaving h = some curr) (hX : g.chain = X ++ pred :: curr :: Y) :
    Keeps n h s g
      ((s.store { s.list with
        next_idx := update s.list.next_idx pred (s.list.next_idx curr) }).record h .unlinked)
      { g with chain := X ++ pred :: Y, flight := update g.flight h (some curr) } := by
  refine ⟨?_, fun k hk => unlinked_rel hI hp hlv hX hk⟩
  obtain ⟨hsh, hg, ho, hh⟩ := hI
  have hc := hg.taken h curr hlv
  obtain ⟨-, hcn⟩ := ho.taken h curr hlv
  have hcX : curr ∉ X ++ pred :: Y := by
    have hd := hsh.linked.nodup
    rw [hX, List.append_cons, List.nodup_middle, List.nodup_cons] at hd
    simpa using hd.1
  have hleave {k : Hpu} {i : ℕ} (hk : update s.leaving h none k = some i) :
      k ≠ h ∧ s.leaving k = some i := owner_update_none hk
  have hlive : live (update s.leaving h none) (X ++ pred :: Y) = live s.leaving g.chain := by
    rw [live_unlink hlv hcX, hX]
  refine ⟨hsh.unlink hX hcn, ⟨hg.lock, hg.free_lock, fun k i hk => hg.taken k i (hleave hk).2⟩,
    ⟨ho.sentinel_left, ho.sentinel_right, fun k i hk => ?_, ?_⟩, ?_⟩
  · -- what another HPU takes out is a node that it holds, so not `curr`
    obtain ⟨hkh, hki⟩ := hleave hk
    have hic : i ≠ curr := fun he =>
      hkh (Option.some.inj ((hg.taken k i hki).symm.trans (he ▸ hc)))
    exact (ho.taken k i hki).imp_left fun hi => mem_unlink (hX ▸ hi) hic
  · change Spaced 0 s.list.left s.list.right (live (update s.leaving h none) (X ++ pred :: Y))
    rw [hlive]
    exact ho.spaced
  · change History _ g.pending
      (covers s.list.left s.list.right (live (update s.leaving h none) (X ++ pred :: Y)))
    rw [hlive]
    exact { hh with }

/-- The range of a node is given to the caller, and the node is to be taken out from then
on. -/
theorem popped (hI : Inv n s g) (hc : g.holder curr = some h) (hlv : s.leaving h = none)
    (hm : curr ∈ g.chain) (hn : curr < n) (marks : ℕ → ℕ) :
    Keeps n h s g
      ((s.store { s.list with marks := marks }).record h
        (.popped ⟨s.list.left curr, s.list.right curr⟩ curr)) g := by
  have hcl := Window.not_leaving hI hc hlv
  obtain ⟨hsh, hg, ho, hh⟩ := hI
  -- the node is between the sentinels, so its range is proper
  obtain ⟨l, hl⟩ := hsh.ends
  have hml : curr ∈ l := by
    rw [hl] at hm
    simp only [List.mem_cons, List.mem_append, List.not_mem_nil, or_false] at hm
    exact (hm.resolve_left hn.ne).resolve_right (by omega)
  have hb := Order.bounds (hl ▸ ho) (List.mem_filter.mpr ⟨hml, by simpa using hcl⟩)
  obtain ⟨X, Y, hX⟩ := List.append_of_mem hm
  have hnd := hsh.linked.nodup
  rw [hX, List.nodup_middle, List.nodup_cons] at hnd
  replace hnd := hnd.1
  have hlog : ((s.store { s.list with marks := marks }).record h
      (.popped ⟨s.list.left curr, s.list.right curr⟩ curr)).log =
        s.log ++ [(h, .popped ⟨s.list.left curr, s.list.right curr⟩)] := rfl
  -- it counted, and from now on it does not
  have hlive : live s.leaving g.chain = live s.leaving X ++ curr :: live s.leaving Y := by
    rw [hX, live_append, live_cons hcl]
  have hlive' : live (update s.leaving h (some curr)) g.chain =
      live s.leaving X ++ live s.leaving Y := by
    refine live_leave hlv hlive ?_
    rw [← live_append]
    exact fun hm => hnd (live_sublist.subset hm)
  have hs := ho.spaced
  rw [hlive] at hs
  -- the values that go are its own
  have hcov : covers s.list.left s.list.right (live (update s.leaving h (some curr)) g.chain) =
      s.listed g.chain \ Set.Icc (s.list.left curr) (s.list.right curr) := by
    rw [hlive', shared_t.listed, hlive, hs.covers_remove le_rfl]
  have hleave {k : Hpu} {i : ℕ} (hk : update s.leaving h (some curr) k = some i) :
      k = h ∧ some curr = some i ∨ k ≠ h ∧ s.leaving k = some i := owner_update hk
  refine ⟨⟨{ hsh with }, ⟨hg.lock, hg.free_lock, fun k i hk => ?_⟩,
    ⟨ho.sentinel_left, ho.sentinel_right, fun k i hk => ?_, ?_⟩, ?_⟩, fun k hk => ?_⟩
  · -- the node that is taken out is one whose lock `h` has
    obtain ⟨rfl, he⟩ | ⟨-, hk⟩ := hleave hk
    · exact Option.some.inj he ▸ hc
    · exact hg.taken k i hk
  · obtain ⟨-, he⟩ | ⟨-, hk⟩ := hleave hk
    · exact Option.some.inj he ▸ ⟨hm, hn⟩
    · exact ho.taken k i hk
  · change Spaced 0 s.list.left s.list.right (live (update s.leaving h (some curr)) g.chain)
    rw [hlive']
    exact hs.sublist ((List.sublist_cons_self curr _).append_left _)
  · -- the history: they were in the content, and lie between the sentinels
    change History _ g.pending
      (covers s.list.left s.list.right (live (update s.leaving h (some curr)) g.chain))
    rw [hcov]
    refine hh.pop hlog rfl rfl (fun v hv => ?_) fun v hv => ?_
    · rw [shared_t.listed, hlive, covers_put]
      exact Or.inr hv
    · exact ⟨hb.1.trans_le hv.1, lt_of_le_of_lt hv.2 hb.2.2⟩
  · exact
      { Rel.refl k s g with
        leaving := Function.update_of_ne hk _ _
        events := events_of_ne hlog hk }

end Inv

end Pspin.Lazylist
