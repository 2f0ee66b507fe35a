/-
`lazylist.h` used by several HPUs: safety of the runs.

In every run of any number of HPUs whose steps are all `covered`, the list is `Intact` in
every state. Without the condition it is not: `lazylist_pop_front` reads the link of the
head before it takes the locks of the two nodes behind it, and stores to it without the
lock of the head, so that a node that was inserted meanwhile is unlinked with the front.
-/
import Pspin.LazylistInsertion
import Pspin.LazylistRemoval
import Pspin.LazylistRuns

set_option autoImplicit false

namespace Pspin.Lazylist

open Interleave LinkedPath RangeList
open Function (update)

variable {Hpu : Type} [DecidableEq Hpu] {s : shared_t Hpu} {g : ghost_t Hpu} {h : Hpu} {c : ℕ}

/-! ## The start and the end of a call -/

/-- The lists as `lazylist_init` leaves them. -/
def ghost_t.initial (c : ℕ) : ghost_t Hpu where
  chain := [c - 2, c - 2 + 1]
  free := List.range (c - 2)
  holder _ := none
  free_holder := none
  flight _ := none
  pending _ := none

/-- The marks do not matter to the rest of the list. -/
theorem Valid.of_init (list : lazylist_t) (hc : 3 ≤ c) (hc' : c ≤ NUM_SEGMENTS) :
    ∃ marks, Valid { lazylist_init list c with marks := marks } (c - 2) []
      (List.range (c - 2)) := by
  have hv : Valid (lazylist_init { list with marks := fun _ => 0 } c) _ _ _ :=
    Valid.init hc hc' rfl rfl
  rw [init_marks] at hv
  exact ⟨_, hv⟩

/-- The sentinels are in order, and cover no integer between them. -/
theorem sentinels {left right : ℕ → ℤ} {n : ℕ} (hl : left n = INT32_MIN ∧ right n = INT32_MIN)
    (hr : left (n + 1) = INT32_MAX ∧ right (n + 1) = INT32_MAX) :
    Spaced 0 left right [n, n + 1] ∧ ∀ v ∈ inner, v ∉ covers left right [n, n + 1] := by
  refine ⟨Spaced.cons_iff.mpr ⟨?_, Spaced.cons_iff.mpr ⟨?_, ⟨nofun, List.Pairwise.nil⟩, nofun⟩, ?_⟩,
    fun v hv => ?_⟩
  · rw [hl.1, hl.2]
  · rw [hr.1, hr.2]
  · intro i hi
    obtain rfl := List.mem_singleton.mp hi
    rw [hl.2, hr.1]
    decide
  · have hlt := hv.1
    have hlt' := hv.2
    rintro ⟨i, hi, h1, h2⟩
    simp only [List.mem_cons, List.not_mem_nil, or_false] at hi
    rcases hi with rfl | rfl
    · rw [hl.2] at h2
      omega
    · rw [hr.1] at h1
      omega

theorem Inv.initial (hs : initial c s) :
    Inv (c - 2) s (.initial c) ∧ ∀ h, Knows h (.fresh none) s (.initial c) := by
  obtain ⟨list, hc, hc'⟩ := hs
  obtain ⟨marks, hv⟩ := Valid.of_init list hc hc'
  set list := lazylist_init list c
  -- the list has the two sentinels, and nobody takes one out
  have hlive : live (fun _ : Hpu => (none : Option ℕ)) [c - 2, c - 2 + 1] = [c - 2, c - 2 + 1] := by
    rw [live_cons nofun, live_cons nofun]
    rfl
  obtain ⟨hspaced, hout⟩ := sentinels hv.sentinel_left hv.sentinel_right
  rw [← hlive] at hspaced hout
  refine ⟨⟨?_, ⟨fun _ _ => rfl, fun _ => rfl, nofun⟩,
    ⟨hv.sentinel_left, hv.sentinel_right, nofun, hspaced⟩, ?_⟩,
    fun h => ⟨rfl, rfl, nofun, rfl, nofun⟩⟩
  · -- the shape of the list after `lazylist_init`
    exact
      { capacity := hv.capacity, head := hv.head, idx := hv.idx, linked := hv.linked
        ends := ⟨[], rfl⟩
        chain_le := by
          simp only [ghost_t.initial, List.mem_cons, List.not_mem_nil, or_false]
          omega
        path := hv.free
        free_lt := fun i hi => List.mem_range.mp hi
        disjoint := by
          intro i hi hi'
          simp only [ghost_t.initial, List.mem_cons, List.not_mem_nil, or_false, List.mem_range]
            at hi hi'
          omega
        flight_lt := nofun, flight_chain := nofun, flight_free := nofun, flight_inj := nofun }
  · -- nothing has happened yet, and there is no value between the sentinels
    exact
      { proper := nofun, apart := List.Pairwise.nil, inserted := nofun, begun := nofun
        waits := nofun, pending_inj := nofun, popped := nofun
        content := fun v hi => by
          constructor
          · rintro ⟨h, r, hm, -⟩
            exact nomatch hm
          · rintro (hS | ⟨h, r, hm, -⟩)
            · exact absurd hS (hout v hi)
            · exact nomatch hm
        still := fun v hi hS => absurd hS (hout v hi)
        once := List.Pairwise.nil
        reported := fun _ => List.prefix_rfl }

/-- A call to `lazylist_insert` is begun with a range that shares nothing with the others. -/
theorem Inv.begin_insert (hI : Inv (c - 2) s g) (hk : Knows h (.fresh none) s g)
    {range : lazylist_range_t} (hr : range.Proper)
    (hd : ∀ r ∈ s.started, Disjoint range.values r.values) :
    Keeps (c - 2) h s g { s with started := range :: s.started }
        { g with pending := update g.pending h (some range) } ∧
      Knows h (.fresh (some range)) { s with started := range :: s.started }
        { g with pending := update g.pending h (some range) } := by
  -- a new range, since it shares nothing with those before
  have hnot : range ∉ s.started := fun hm => by
    have hmem : range.left ∈ range.values := ⟨le_rfl, hr.le⟩
    exact Set.disjoint_left.mp (hd range hm) hmem hmem
  obtain ⟨hsh, hg, ho, hh⟩ := hI
  refine ⟨⟨⟨hsh, hg, ho, ?_⟩,
    fun k hk => { Rel.refl k s g with pending := Function.update_of_ne hk _ _ }⟩, { hk with pending := fun r hp => hp ▸ Function.update_self _ _ _ }⟩
  exact
    { hh with
      proper := List.forall_mem_cons.mpr ⟨hr, hh.proper⟩
      apart := List.pairwise_cons.mpr ⟨hd, hh.apart⟩
      inserted := fun k r hm => List.mem_cons_of_mem _ (hh.inserted k r hm)
      -- it has begun, and waits for no one else
      begun := fun k r hk => by
        rcases owner_update hk with ⟨-, ⟨⟩⟩ | ⟨-, hk⟩
        · exact List.mem_cons_self
        · exact List.mem_cons_of_mem _ (hh.begun k r hk)
      waits := fun k j r hk hm => by
        rcases owner_update hk with ⟨-, ⟨⟩⟩ | ⟨-, hk⟩
        · exact hnot (hh.inserted j range hm)
        · exact hh.waits k j r hk hm
      -- no two calls wait with one range
      pending_inj := fun k j r hk hj => by
        rcases owner_update hk with ⟨he, ⟨⟩⟩ | ⟨-, hk⟩ <;>
          rcases owner_update hj with ⟨he', hr'⟩ | ⟨-, hj⟩
        · exact he.trans he'.symm
        · exact absurd (hh.begun j range hj) hnot
        · exact absurd (Option.some.inj hr' ▸ hh.begun k r hk) hnot
        · exact hh.pending_inj k j r hk hj }

/-- A call ends and reports its events. -/
theorem Inv.finish {es : List event_t} (hI : Inv (c - 2) s g)
    (hk : Knows h ⟨none, none, none, es, []⟩ s g) :
    Keeps (c - 2) h s g { s with ended := update s.ended h (s.ended h ++ es) } g ∧
      Knows h (.fresh none) { s with ended := update s.ended h (s.ended h ++ es) } g := by
  obtain ⟨hsh, hg, ho, hh⟩ := hI
  refine ⟨⟨⟨hsh, hg, ho, { hh with reported := fun k => ?_ }⟩,
    fun k hk => { Rel.refl k s g with ended := Function.update_of_ne hk _ _ }⟩,
    { hk with events := ?_ }⟩
  · by_cases hkh : k = h
    · change update s.ended h (s.ended h ++ es) k <+: s.events k
      simp only [hkh, Function.update_self, hk.events, List.prefix_rfl]
    · change update s.ended h (s.ended h ++ es) k <+: s.events k
      rw [Function.update_of_ne hkh]
      exact hh.reported k
  · change s.events h = update s.ended h (s.ended h ++ es) h ++ []
    rw [Function.update_self, List.append_nil, hk.events]

/-! ## Every run -/

theorem lazylist_intact {capacity : ℕ}
    {t : Threads Hpu (shared_t Hpu) access_t (List event_t)}
    (h : Interleave.Reach (calls Hpu capacity) covered t) : Intact t := by
  -- the invariant of rely and guarantee, with what each HPU knows between its calls
  obtain ⟨g, hI, hk⟩ := Rely.inv (rely Hpu capacity) (fun h => Knows h (.fresh none))
    (fun h es => Knows h ⟨none, none, none, es, []⟩) (fun _ => Knows.stable)
    (fun s hs => ⟨_, Inv.initial hs⟩)
    (fun {h s g p s'} hI hk hs => by
      cases hs with
      | insert fuel hr hd =>
          obtain ⟨hK, hk'⟩ := hI.begin_insert hk hr hd
          exact ⟨_, hK, insert_call_ok fuel _ _ hK.1 hk'⟩
      | pop_front fuel range_left =>
          exact ⟨g, Rely.Keeps.refl hI, pop_front_call_ok fuel range_left s g hI hk⟩)
    (fun {h s g es} hI hk => ⟨g, hI.finish hk⟩) h
  obtain ⟨hsh, -, ho, hh⟩ := hI
  -- what the invariant says of the list, and of a call that has ended
  refine
    { lists := ⟨g.chain, g.free, ?_, hsh.path, hsh.disjoint, ho.spaced, fun v hl hr =>
        ⟨hh.content v ⟨hl, hr⟩, fun hv => hh.still v ⟨hl, hr⟩ hv.1 hv.2⟩⟩
      once := hh.once
      reported := hh.reported
      idle := fun k hidle => ?_ }
  · rw [Linked, hsh.head]
    exact hsh.linked
  · have hk' := hk k
    rw [hidle] at hk'
    exact ((Knows.events hk').trans (List.append_nil _)).symm

/-- The list with no ranges, for four nodes. -/
def start_state : Threads Bool (shared_t Bool) access_t (List event_t) :=
  ⟨⟨lazylist_init blank 4, fun _ => none, [], [], fun _ => []⟩, fun _ => none⟩

/-- The two ranges of the runs below. -/
theorem proper_100 : lazylist_range_t.Proper ⟨100, 109⟩ := ⟨by decide, by decide, by decide⟩

theorem proper_10 : lazylist_range_t.Proper ⟨10, 19⟩ := ⟨by decide, by decide, by decide⟩

/-- They have no integer in common. -/
theorem apart_10 : ∀ r ∈ [(⟨100, 109⟩ : lazylist_range_t)],
    Disjoint (lazylist_range_t.values ⟨10, 19⟩) r.values := by
  intro r hm
  obtain rfl := List.mem_singleton.mp hm
  refine Set.disjoint_left.mpr fun v hv hv' => ?_
  have hlt := hv.2.trans_lt (lt_of_lt_of_le (by decide : (19 : ℤ) < 100) hv'.1)
  exact hlt.false

/-- Two HPUs, all of whose steps are covered. One inserts a range, searches the place of a
second one, and stops before it locks the two nodes. The other HPU pops the first range. The
validation of the insertion fails on the mark of the popped node, and the second turn puts
the range into the empty list. -/
theorem pop_beside_insert : ∃ t, Interleave.Reach (calls Bool 4) covered t ∧
    (∀ h, t.prog h = none) ∧
    t.shared.log = [(false, .inserted ⟨100, 109⟩), (true, .popped ⟨100, 109⟩),
      (false, .inserted ⟨10, 19⟩)] ∧
    Linked t.shared.list [2, 0, 3] := by
  have h0 : Interleave.Reach (calls Bool 4) covered start_state :=
    .init (.init blank (by decide) (by decide))
  have h1 := (h0.step (.start (h := false) rfl (start.insert 9 proper_100 nofun))).advance
    (i := false) (p := insert_call 9 ⟨100, 109⟩) 33 rfl ?_ rfl
  · have h2 := h1.step (.finish (h := false) (a := [.inserted ⟨100, 109⟩]) rfl)
    -- the search of the second insertion, up to its first lock
    have h3 := (h2.step (.start (h := false) rfl (start.insert 9 proper_10 apart_10))).advance
      (i := false) (p := insert_call 9 ⟨10, 19⟩) 6 rfl ?_ rfl
    · have h4 := (h3.step (.start (h := true) rfl (start.pop_front 9 (-1)))).advance
        (i := true) (p := pop_front_call 9 (-1)) 29 rfl ?_ rfl
      · have h5 := h4.step (.finish (h := true) (a := [.popped ⟨100, 109⟩]) rfl)
        have h6 := h5.advance (i := false) 41 rfl ?_ rfl
        · have h7 := h6.step (.finish (h := false) (a := [.inserted ⟨10, 19⟩]) rfl)
          refine ⟨_, h7, fun h => ?_, rfl, ⟨rfl, by decide, rfl, by decide, rfl, by decide, rfl⟩⟩
          cases h <;> rfl
        · -- the first validation fails, and the search starts again
          iterate 12 refine ⟨trivial, ?_⟩
          refine ⟨(by decide : (19 : ℤ) < 2147483647), ?_⟩
          iterate 9 refine ⟨trivial, ?_⟩
          refine ⟨⟨⟨[2, 3], ⟨rfl, by decide, rfl, by decide, rfl⟩, by decide⟩, rfl, by decide,
            by decide⟩, ?_⟩
          iterate 11 refine ⟨trivial, ?_⟩
          refine ⟨rfl, ?_⟩
          iterate 6 refine ⟨trivial, ?_⟩
          trivial
      · iterate 14 refine ⟨trivial, ?_⟩
        -- the links of the head and of the front
        refine ⟨⟨rfl, rfl⟩, ?_⟩
        iterate 14 refine ⟨trivial, ?_⟩
        trivial
    · iterate 4 refine ⟨trivial, ?_⟩
      refine ⟨(by decide : (19 : ℤ) < 100), ?_⟩
      refine ⟨trivial, ?_⟩
      trivial
  · iterate 4 refine ⟨trivial, ?_⟩
    -- the search
    refine ⟨(by decide : (109 : ℤ) < 2147483647), ?_⟩
    iterate 9 refine ⟨trivial, ?_⟩
    -- the two nodes
    refine ⟨⟨⟨[2, 3], ⟨rfl, by decide, rfl, by decide, rfl⟩, by decide⟩, rfl, by decide,
      by decide⟩, ?_⟩
    iterate 11 refine ⟨trivial, ?_⟩
    -- the lock of the new node
    refine ⟨rfl, ?_⟩
    iterate 6 refine ⟨trivial, ?_⟩
    trivial

theorem lazylist_intact_demo :
    ∃ t : Threads Bool (shared_t Bool) access_t (List event_t),
      t.shared.log = [(false, .inserted ⟨100, 109⟩), (true, .popped ⟨100, 109⟩),
        (false, .inserted ⟨10, 19⟩)] ∧ Linked t.shared.list [2, 0, 3] ∧ Intact t := by
  obtain ⟨t, ht, -, hlog, hlinked⟩ := pop_beside_insert
  exact ⟨t, hlog, hlinked, lazylist_intact ht⟩

/-! ## A run that loses a range -/

/-- One HPU inserts a range. Another one reads the front of the list, which is this range, in
`lazylist_pop_front`, and waits. The first HPU inserts a range in front of it. The other one
goes on, and unlinks both. -/
theorem lazylist_race : ∃ t, Interleave.Reach (calls Bool 4) (fun _ _ _ _ => True) t ∧
    (∀ h, t.prog h = none) ∧
    t.shared.log = [(false, .inserted ⟨100, 109⟩), (false, .inserted ⟨10, 19⟩),
      (true, .popped ⟨100, 109⟩)] ∧
    Linked t.shared.list [2, 3] ∧ t.shared.list.right 2 = INT32_MIN ∧
    t.shared.list.left 3 = INT32_MAX := by
  have hall {p : Code (List event_t)} {h : Bool} {n : ℕ} {s : shared_t Bool} :
      p.Allowed ((calls Bool 4).sem h) (fun _ _ => True) n s :=
    Prog.allowed (fun _ _ => trivial) n p s
  have h0 : Interleave.Reach (calls Bool 4) (fun _ _ _ _ => True) start_state :=
    .init (.init blank (by decide) (by decide))
  have h1 := (h0.step (.start (h := false) rfl (start.insert 9 proper_100 nofun))).advance
    (i := false) (p := insert_call 9 ⟨100, 109⟩) 33 rfl hall rfl
  have h2 := h1.step (.finish (h := false) (a := [.inserted ⟨100, 109⟩]) rfl)
  -- up to the first lock
  have h3 := (h2.step (.start (h := true) rfl (start.pop_front 9 (-1)))).advance
    (i := true) (p := pop_front_call 9 (-1)) 5 rfl hall rfl
  have h4 := (h3.step (.start (h := false) rfl (start.insert 9 proper_10 apart_10))).advance
    (i := false) (p := insert_call 9 ⟨10, 19⟩) 33 rfl hall rfl
  have h5 := h4.step (.finish (h := false) (a := [.inserted ⟨10, 19⟩]) rfl)
  have h6 := h5.advance (i := true) 24 rfl hall rfl
  have h7 := h6.step (.finish (h := true) (a := [.popped ⟨100, 109⟩]) rfl)
  refine ⟨_, h7, fun h => ?_, rfl, ⟨rfl, by decide, rfl, by decide, rfl⟩, rfl, rfl⟩
  cases h <;> rfl

theorem lazylist_not_intact :
    ¬∀ t, Interleave.Reach (calls Bool 4) (fun _ _ _ _ => True) t → Intact t := by
  intro hall
  obtain ⟨t, ht, -, hlog, hlinked, hright, hleft⟩ := lazylist_race
  obtain ⟨chain, free, hchain, -, -, -, hcontent⟩ := (hall t ht).lists
  obtain rfl := hchain.unique hlinked
  have hins : t.shared.Inserted 10 := ⟨false, ⟨10, 19⟩, by simp [hlog], by decide, by decide⟩
  rcases ((hcontent 10 (by decide) (by decide)).1.mp hins) with ⟨i, hi, hl, hr⟩ | ⟨h, r, hm, hv⟩
  · have hi := live_sublist.subset hi
    simp only [List.mem_cons, List.not_mem_nil, or_false] at hi
    rcases hi with rfl | rfl
    · exact absurd (hright ▸ hr) (by decide)
    · exact absurd (hleft ▸ hl) (by decide)
  · obtain ⟨-, rfl⟩ : h = true ∧ r = ⟨100, 109⟩ := by simpa [hlog] using hm
    exact absurd hv.1 (by decide)

end Pspin.Lazylist
