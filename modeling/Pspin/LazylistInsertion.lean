/-
`lazylist.h` used by several HPUs: `lazylist_insert` among other calls.

From the first read behind the validation on, the two nodes and the range are known
(`place`). What follows depends on the two ranges only: each of the four ways to place the
range has one store that inserts it.
-/
import Pspin.LazylistOutline

set_option autoImplicit false

namespace Pspin.Lazylist

open Interleave LinkedPath RangeList
open Function (update)

variable {Hpu : Type} [DecidableEq Hpu] {s : shared_t Hpu} {g g' : ghost_t Hpu} {h : Hpu} {c : ℕ}
  {l : local_t} {pred curr : ℕ} {a b range : lazylist_range_t}

/-! ## Behind the validation -/

/-- The first read behind the validation. The range lies between the two nodes, as it shares
nothing with theirs. -/
theorem place (hp : pred ∈ l.locks) (hc : curr ∈ l.locks) (hlt : curr < NUM_SEGMENTS + 2)
    (hr : l.pending = some range) (hlv : l.leaving = none) :
    (rely Hpu c).Triple h (Knows h l) (noted (.place pred curr range) (.right pred))
      fun right s g => ∃ a b, (a.right < range.left ∧ range.right < b.left ∧ right = a.right) ∧
        Validated h l pred curr a b s g := by
  -- the step reads `right` of `pred`; what it compares with has been validated under both locks
  refine read (fun _ => rfl) (fun _ => rfl) Knows.stable (fun _ => ?_) fun s g hI hk hm _ => ?_
  · exact Rely.Stable.of_exists fun _ => Rely.Stable.of_exists fun _ =>
      Rely.Stable.and (Rely.Stable.pure _) Validated.stable
  · obtain ⟨⟨chain, hlist, hmem⟩, hnext, hpr, hcr⟩ := hm
    have hlist' : Path s.list.next_idx EOL (c - 2) chain := hI.shape.head ▸ hlist
    -- the chain of the validation is the one of the invariant
    obtain rfl := hlist'.unique hI.shape.linked
    have hE : curr ≠ EOL := by
      have : NUM_SEGMENTS + 2 < EOL := by decide
      omega
    have hcm : curr ∈ g.chain := hnext ▸ hI.shape.linked.next_mem hmem (hnext ▸ hE)
    -- a locked node of the chain is not one that someone is taking out
    have hlive {i : ℕ} (hi : i ∈ g.chain) (hl : i ∈ l.locks) : i ∈ live s.leaving g.chain :=
      List.mem_filter.mpr
        ⟨hi, by simpa using Window.not_leaving hI (hk.locks i hl) (hk.leaving.trans hlv)⟩
    -- the pending range shares nothing with a live node, so it lies behind the one and before
    -- the other
    have hgl : s.list.right pred < range.left :=
      (hI.apart (hk.pending range hr) (hlive hmem hp)).resolve_right (not_lt.mpr hpr)
    have hgr : range.right < s.list.left curr :=
      (hI.apart (hk.pending range hr) (hlive hcm hc)).resolve_left (not_lt.mpr hcr)
    exact ⟨⟨s.list.left pred, s.list.right pred⟩, ⟨s.list.left curr, s.list.right curr⟩,
      ⟨hgl, hgr, rfl⟩, hk, ⟨hk.locks pred hp, hk.locks curr hc, hmem, hcm, hnext⟩, rfl, rfl, rfl, rfl⟩

theorem connects_left_ok (hp : pred ∈ l.locks) (hc : curr ∈ l.locks)
    (hlt : curr < NUM_SEGMENTS + 2) (hr : l.pending = some range) (hlv : l.leaving = none) :
    (rely Hpu c).Triple h (Knows h l) (connects_left pred curr range) fun left s g =>
      ∃ a b, (a.right < range.left ∧ range.right < b.left ∧
        (left = true → a.right + 1 = range.left ∧ INT32_MIN < a.left)) ∧
        Validated h l pred curr a b s g := by
  refine (place hp hc hlt hr hlv).bind fun right => ?_
  apply Rely.Triple.of_exists
  intro a
  apply Rely.Triple.of_exists
  intro b
  apply Rely.Triple.pure
  rintro ⟨hgl, hgr, rfl⟩
  split
  · rename_i heq
    refine (read_known (x := a.left) (fun _ => rfl) Validated.stable
      fun s g _ hV => hV.2.pred_left).bind fun left => ?_
    apply Rely.Triple.pure
    rintro rfl
    refine Rely.Triple.ret Validated.stable fun s g _ hV => ⟨a, b, ⟨hgl, hgr, fun hleft => ?_⟩, hV⟩
    exact ⟨heq, of_decide_eq_true hleft⟩
  · exact Rely.Triple.ret Validated.stable fun s g _ hV =>
      ⟨a, b, ⟨hgl, hgr, fun hf => absurd hf Bool.false_ne_true⟩, hV⟩

theorem connects_right_ok :
    (rely Hpu c).Triple h (Validated h l pred curr a b) (connects_right curr range) fun right s g =>
      (right = true → range.right + 1 = b.left ∧ b.left < INT32_MAX) ∧
        Validated h l pred curr a b s g := by
  have hread : (rely Hpu c).Triple h (Validated h l pred curr a b) (on (.left curr))
      fun left s g => left = b.left ∧ Validated h l pred curr a b s g :=
    read_known (fun _ => rfl) Validated.stable fun s g _ hV => hV.2.curr_left
  refine hread.bind fun left => ?_
  apply Rely.Triple.pure
  rintro rfl
  split
  · rename_i heq
    refine hread.bind fun left => ?_
    apply Rely.Triple.pure
    rintro rfl
    refine Rely.Triple.ret Validated.stable fun s g _ hV => ⟨fun hright => ?_, hV⟩
    exact ⟨heq, of_decide_eq_true hright⟩
  · exact Rely.Triple.ret Validated.stable fun s g _ hV =>
      ⟨fun hf => absurd hf Bool.false_ne_true, hV⟩

/-! ## The stores that insert -/

/-- What a call knows once it has inserted the range. -/
def inserted (flight leaving : Option ℕ) (range : lazylist_range_t) (locks : List ℕ) : local_t :=
  ⟨flight, leaving, none, [.inserted range], locks⟩

theorem Knows.inserted {list : lazylist_t} {flight to_delete : Option ℕ} (hk : Knows h l s g)
    (he : l.events = []) (hho : g'.holder = g.holder) (hfl : g'.flight h = flight) :
    Knows h (inserted flight to_delete range l.locks)
      ((s.store list).record h (.inserted range to_delete)) g' where
  flight := hfl
  leaving := Function.update_self _ _ _
  pending := nofun
  events := by
    rw [events_self (s := s) rfl, hk.events, he, List.append_nil]
    rfl
  locks i hi := by
    rw [hho]
    exact hk.locks i hi

/-- What a call knows before it inserts the range. -/
def inserting (range : lazylist_range_t) (locks : List ℕ) : local_t :=
  ⟨none, none, some range, [], locks⟩

section Stores

variable {locks : List ℕ}

theorem join_store (hl : a.right + 1 = range.left) (hl' : INT32_MIN < a.left)
    (hr : range.right + 1 = b.left) (hr' : b.left < INT32_MAX) :
    (rely Hpu c).Triple h (Validated h (inserting range locks) pred curr a b)
      (noted (.inserted range (some curr)) (.set_right pred b.right)) fun _ s g =>
        Knows h (inserted none (some curr) range locks) s g ∧ Window h pred curr s g := by
  refine store Validated.stable (Rely.Stable.and Knows.stable Window.stable)
    fun s g list hI hV _ hs => ?_
  obtain ⟨hk, hb⟩ := hV
  obtain rfl := node_store hs
  have hstep := hI.joined hb.window (hk.pending range rfl) hk.leaving (hb.pred_right.symm ▸ hl)
    (hb.pred_left.symm ▸ hl') (hb.curr_left.symm ▸ hr) (hb.curr_left.symm ▸ hr')
  rw [hb.curr_right] at hstep
  exact ⟨_, hstep, hk.inserted rfl rfl hk.flight, { hb.window with }⟩

theorem grow_right_store (hl : a.right + 1 = range.left) (hl' : INT32_MIN < a.left)
    (hr : range.right < b.left) :
    (rely Hpu c).Triple h (Validated h (inserting range locks) pred curr a b)
      (noted (.inserted range none) (.set_right pred range.right)) fun _ =>
        Knows h (inserted none none range locks) := by
  refine store Validated.stable Knows.stable fun s g list hI hV _ hs => ?_
  obtain ⟨hk, hb⟩ := hV
  obtain rfl := node_store hs
  exact ⟨_, hI.grown_right hb.window (hk.pending range rfl) hk.leaving (hb.pred_right.symm ▸ hl)
    (hb.pred_left.symm ▸ hl') (hb.curr_left.symm ▸ hr), hk.inserted rfl rfl hk.flight⟩

theorem grow_left_store (hl : a.right < range.left) (hr : range.right + 1 = b.left)
    (hr' : b.left < INT32_MAX) :
    (rely Hpu c).Triple h (Validated h (inserting range locks) pred curr a b)
      (noted (.inserted range none) (.set_left curr range.left)) fun _ =>
        Knows h (inserted none none range locks) := by
  refine store Validated.stable Knows.stable fun s g list hI hV _ hs => ?_
  obtain ⟨hk, hb⟩ := hV
  obtain rfl := node_store hs
  exact ⟨_, hI.grown_left hb.window (hk.pending range rfl) hk.leaving (hb.pred_right.symm ▸ hl)
    (hb.curr_left.symm ▸ hr) (hb.curr_left.symm ▸ hr'), hk.inserted rfl rfl hk.flight⟩

end Stores

/-- What a call knows when it takes out the second node. -/
theorem leaving_stable {x : ℕ} (hl : l.leaving = some curr) :
    (rely Hpu c).Stable h fun s g =>
      Knows h l s g ∧ Window h pred curr s g ∧ s.list.next_idx curr = x := by
  intro s g s' g' hA hr hI
  obtain ⟨hk, hw, hx⟩ := hA
  refine ⟨Knows.stable hk hr hI, Window.stable hw hr hI, ?_⟩
  have hn := (hI.order.taken h curr ((Knows.stable hk hr hI).leaving.trans hl)).2
  refine (hr.next curr hw.curr_mem hw.curr_held ?_).trans hx
  rw [← hr.head, hI.shape.head]
  exact hn.ne

/-- `curr_node` is marked and taken out. -/
theorem take_out {locks : List ℕ} :
    (rely Hpu c).Triple h
      (fun s g => Knows h (inserted none (some curr) range locks) s g ∧ Window h pred curr s g)
      (do
        let curr_idx ← on (.idx curr)
        on (.set_mark curr_idx 1)
        let next_idx ← on (.next_idx curr)
        noted .unlinked (.set_next_idx pred next_idx)
        return (0, some curr) : Code (ℕ × Option ℕ))
      fun r s g => r = (0, some curr) ∧ Knows h (inserted (some curr) none range locks) s g := by
  have hA : (rely Hpu c).Stable h fun s g =>
      Knows h (inserted none (some curr) range locks) s g ∧ Window h pred curr s g :=
    Rely.Stable.and Knows.stable Window.stable
  -- the index of the node that goes
  refine (read_known (x := curr) (fun _ => rfl) hA fun s g hI hA => ?_).bind fun curr_idx => ?_
  · exact hI.shape.idx curr (hI.shape.chain_le curr hA.2.curr_mem)
  apply Rely.Triple.pure
  rintro rfl
  -- its mark: nothing that others rely on
  refine (store hA hA fun s g list hI hA _ hs => ?_).bind fun _ => ?_
  · obtain rfl := mark_store hs
    exact ⟨g, hI.set_marks h _, { hA.1 with }, { hA.2 with }⟩
  -- its link, which does not change while it is taken out
  refine (read (fun _ => rfl) (fun _ => rfl) hA (fun x => leaving_stable (x := x) rfl)
    fun s g _ hA _ _ => ⟨hA.1, hA.2, rfl⟩).bind fun next_idx => ?_
  -- the store that unlinks it
  refine (store (leaving_stable rfl) Knows.stable fun s g list hI hA _ hs => ?_).bind fun _ =>
    Rely.Triple.ret Knows.stable fun s g _ hk => ⟨rfl, hk⟩
  obtain ⟨hk, hw, rfl⟩ := hA
  obtain rfl := node_store hs
  obtain ⟨X, Y, hX⟩ := hw.split hI
  exact ⟨_, hI.unlinked (Or.inr hw.pred_held) hk.leaving hX,
    { hk with
      flight := Function.update_self _ _ _
      leaving := Function.update_self _ _ _ }⟩

/-! ## A new node -/

/-- The call fills in its own node: `P` is what it has written so far. -/
def Prepared (h : Hpu) (l : local_t) (pred curr : ℕ) (a b : lazylist_range_t) (m : ℕ)
    (P : ℤ → ℤ → ℕ → Prop) (s : shared_t Hpu) (g : ghost_t Hpu) : Prop :=
  Validated h l pred curr a b s g ∧ P (s.list.left m) (s.list.right m) (s.list.next_idx m)

section Prepared

variable {m : ℕ} {P Q : ℤ → ℤ → ℕ → Prop}

theorem Prepared.stable (hl : l.flight = some m) :
    (rely Hpu c).Stable h (Prepared h l pred curr a b m P) := by
  intro s g s' g' hA hr hI
  have hm := hA.1.1.flight.trans hl
  refine ⟨Validated.stable hA.1 hr hI, ?_⟩
  rw [hr.own_left m hm, hr.own_right m hm, hr.own_next m hm]
  exact hA.2

theorem Prepared.store {o : op_t Unit} {note : note_t} (hl : l.flight = some m)
    (hn : ∀ s : shared_t Hpu, s.record h note = s)
    (ho : ∀ (s : shared_t Hpu) list, covered h ⟨o, note⟩ s → sem s.list o = .ok () list →
      Inv.OnlyNode s.list list m ∧ (P (s.list.left m) (s.list.right m) (s.list.next_idx m) →
        Q (list.left m) (list.right m) (list.next_idx m))) :
    (rely Hpu c).Triple h (Prepared h l pred curr a b m P) (noted note o) fun _ =>
      Prepared h l pred curr a b m Q := by
  refine Lazylist.store (Prepared.stable hl) (Prepared.stable hl) fun s g list hI hA hm hs => ?_
  obtain ⟨honly, hQ⟩ := ho s list hm hs
  have hfl := hA.1.1.flight.trans hl
  rw [hn]
  exact ⟨g, hI.own_store hfl honly, ⟨{ hA.1.1 with }, hA.1.2.own_store hI hfl honly⟩, hQ hA.2⟩

theorem Prepared.read_idx (hl : l.flight = some m) :
    (rely Hpu c).Triple h (Prepared h l pred curr a b m P) (on (.idx m)) fun i s g =>
      i = m ∧ Prepared h l pred curr a b m P s g :=
  read_known (fun _ => rfl) (Prepared.stable hl) fun s g hI hA =>
    hI.shape.idx m ((hI.shape.flight_lt h m (hA.1.1.flight.trans hl)).le.trans (by omega))

/-- The range, the mark and the lock of `new_node`. -/
theorem fill_new (hl : l.flight = some m) {α : Type} {p : Code α}
    {B : α → shared_t Hpu → ghost_t Hpu → Prop}
    (hp : (rely Hpu c).Triple h (Prepared h l pred curr a b m fun left right _ =>
      left = range.left ∧ right = range.right) p B) :
    (rely Hpu c).Triple h (Validated h l pred curr a b)
      (do
        on (.set_left m range.left)
        on (.set_right m range.right)
        let new_idx ← on (.idx m)
        on (.set_mark new_idx 0)
        noted (.fresh_lock m) (.set_lock m 0)
        p) B := by
  apply Rely.Triple.conseq (A := Prepared h l pred curr a b m fun _ _ _ => True) ?_
    (fun _ _ _ hV => ⟨hV, trivial⟩) fun _ _ _ _ hB => hB
  -- the ends of the range
  refine (Prepared.store (Q := fun left _ _ => left = range.left) hl (fun _ => rfl)
    fun s list _ hs => ?_).bind fun _ => ?_
  · obtain rfl := node_store hs
    exact ⟨.set_left s.list _, fun _ => Function.update_self _ _ _⟩
  refine (Prepared.store (Q := fun left right _ => left = range.left ∧ right = range.right) hl
    (fun _ => rfl) fun s list _ hs => ?_).bind fun _ => ?_
  · obtain rfl := node_store hs
    exact ⟨.set_right s.list _, fun hleft => ⟨hleft, Function.update_self _ _ _⟩⟩
  -- the mark
  refine (Prepared.read_idx hl).bind fun new_idx => ?_
  apply Rely.Triple.pure
  rintro rfl
  refine (Prepared.store (Q := fun left right _ => left = range.left ∧ right = range.right) hl
    (fun _ => rfl) fun s list _ hs => ?_).bind fun _ => ?_
  · obtain rfl := mark_store hs
    exact ⟨.set_marks s.list _, id⟩
  -- and the lock, which the condition on the step says was 0
  refine (Prepared.store (Q := fun left right _ => left = range.left ∧ right = range.right) hl
    (fun _ => rfl) fun s list hm hs => ?_).bind fun _ => hp
  obtain rfl := node_store hs
  exact ⟨.set_lock s.list hm, id⟩

/-- `new_node` is filled in and linked. -/
theorem link_new (hl : l.flight = some m) (hp : l.pending = some range) (hlv : l.leaving = none)
    (he : l.events = []) (hgl : a.right < range.left) (hgr : range.right < b.left) :
    (rely Hpu c).Triple h (Validated h l pred curr a b)
      (do
        on (.set_left m range.left)
        on (.set_right m range.right)
        let new_idx ← on (.idx m)
        on (.set_mark new_idx 0)
        noted (.fresh_lock m) (.set_lock m 0)
        let curr_idx ← on (.idx curr)
        on (.set_next_idx m curr_idx)
        let new_idx ← on (.idx m)
        noted (.inserted range none) (.set_next_idx pred new_idx)
        return (0, none) : Code (ℕ × Option ℕ))
      fun r s g => r = (0, none) ∧ Knows h (inserted none none range l.locks) s g := by
  have hst (P : ℤ → ℤ → ℕ → Prop) : (rely Hpu c).Stable h (Prepared h l pred curr a b m P) :=
    Prepared.stable hl
  apply fill_new hl
  -- the link of the new node, then the store that puts it into the list
  refine (read_known (x := curr) (fun _ => rfl) (hst _) fun s g hI hA => ?_).bind fun curr_idx => ?_
  · exact hI.shape.idx curr (hI.shape.chain_le curr hA.1.2.window.curr_mem)
  apply Rely.Triple.pure
  rintro rfl
  refine (Prepared.store (Q := fun left right next =>
    left = range.left ∧ right = range.right ∧ next = curr_idx) hl (fun _ => rfl)
    fun s list _ hs => ?_).bind fun _ => ?_
  · obtain rfl := node_store hs
    exact ⟨.set_next_idx s.list _, fun hr => ⟨hr.1, hr.2, Function.update_self _ _ _⟩⟩
  refine (Prepared.read_idx hl).bind fun new_idx => ?_
  apply Rely.Triple.pure
  rintro rfl
  refine (Lazylist.store (hst _) Knows.stable fun s g list hI hA _ hs => ?_).bind fun _ =>
    Rely.Triple.ret Knows.stable fun s g _ hk => ⟨rfl, hk⟩
  -- at that store the node is filled, and the range lies in the gap between the two
  obtain ⟨⟨hk, hb⟩, hleft, hright, hnext⟩ := hA
  obtain rfl := node_store hs
  obtain ⟨X, Y, hX⟩ := hb.window.split hI
  have hgap : Gap pred curr_idx range s :=
    ⟨hb.pred_right.trans_lt hgl, hgr.trans_eq hb.curr_left.symm⟩
  exact ⟨_, hI.linked hb.window (hk.pending range hp) (hk.leaving.trans hlv) hgap
    (hk.flight.trans hl) hleft hright hnext hX, hk.inserted he rfl (Function.update_self _ _ _)⟩

end Prepared

/-! ## The call -/

/-- What has been inserted when the error is `error`. -/
def insert_events (error : ℕ) (range : lazylist_range_t) : List event_t :=
  if error = 0 then [.inserted range] else []

/-- What a call knows behind its insertion. -/
def behind (error : ℕ) (to_delete : Option ℕ) (range : lazylist_range_t) (locks : List ℕ) :
    local_t :=
  ⟨to_delete, none, none, insert_events error range, locks⟩

theorem insert_between (locks : List ℕ) (hp : pred ∈ locks) (hc : curr ∈ locks)
    (hlt : curr < NUM_SEGMENTS + 2) :
    (rely Hpu c).Triple h (Knows h (inserting range locks))
      (lazylist_insert_between pred curr range) fun r =>
        Knows h (behind r.1 r.2 range locks) := by
  refine (connects_left_ok hp hc hlt rfl rfl).bind fun left => ?_
  apply Rely.Triple.of_exists
  intro a
  apply Rely.Triple.of_exists
  intro b
  apply Rely.Triple.pure
  rintro ⟨hgl, hgr, hleft⟩
  refine connects_right_ok.bind fun right => ?_
  apply Rely.Triple.pure
  intro hright
  split
  · -- both nodes are joined
    rename_i hboth
    obtain ⟨hl, hl'⟩ := hleft hboth.1
    obtain ⟨hr, hr'⟩ := hright hboth.2
    refine (read_known (x := b.right) (fun _ => rfl) Validated.stable
      fun s g _ hV => hV.2.curr_right).bind fun curr_right => ?_
    apply Rely.Triple.pure
    rintro rfl
    refine (join_store hl hl' hr hr').bind fun _ => ?_
    refine take_out.conseq (fun _ _ _ hA => hA) fun r s g _ hB => ?_
    obtain ⟨rfl, hk⟩ := hB
    exact hk
  · split
    · -- the first node is extended
      rename_i hl
      exact (grow_right_store (hleft hl).1 (hleft hl).2 hgr).bind fun _ =>
        Rely.Triple.ret Knows.stable fun s g _ hk => hk
    · split
      · -- the second node is extended
        rename_i hr
        exact (grow_left_store hgl (hright hr).1 (hright hr).2).bind fun _ =>
          Rely.Triple.ret Knows.stable fun s g _ hk => hk
      · -- a node from the free list, when there is one
        refine (get_free_node rfl).bind fun m => ?_
        cases m with
        | none =>
            exact Rely.Triple.ret Validated.stable fun s g _ hV =>
              { hV.1 with pending := fun r hr => absurd hr.symm (Option.some_ne_none r) }
        | some m =>
            refine (link_new rfl rfl rfl rfl hgl hgr).conseq (fun _ _ _ hV => hV)
              fun r s g _ hr => ?_
            obtain ⟨rfl, hk⟩ := hr
            exact hk

theorem insert_end (error : ℕ) (to_delete : Option ℕ) :
    (rely Hpu c).Triple h (Knows h (behind error to_delete range []))
      (lazylist_insert_end error to_delete) fun error => Knows h (behind error none range []) := by
  cases to_delete with
  | none => exact Rely.Triple.ret Knows.stable fun s g _ hk => hk
  | some i => exact (put_free_node rfl).bind fun _ => Rely.Triple.ret Knows.stable fun s g _ hk => hk

theorem insert_loop (fuel turns : ℕ) :
    (rely Hpu c).Triple h (Knows h (.fresh (some range))) (lazylist_insert_loop fuel range turns)
      fun error => Knows h (behind error none range []) := by
  induction turns with
  | zero => exact Rely.Triple.unfinished
  | succ turns ih =>
      refine (find_pred Knows.stable fuel).bind fun r => ?_
      apply Rely.Triple.pure
      intro hr
      obtain ⟨⟨pred, curr⟩, rfl⟩ := Option.ne_none_iff_exists'.mp hr
      refine (keep (fun _ => rfl) Knows.stable).bind fun _ => ?_
      refine lock_node.bind fun _ => ?_
      apply Rely.Triple.pure
      intro _
      refine lock_node.bind fun _ => ?_
      apply Rely.Triple.pure
      rintro ⟨hlt, hne⟩
      have hne : pred ≠ curr := by simpa [local_t.fresh, eq_comm] using hne
      refine (Rely.Triple.readOnly readOnly_validate Knows.stable).bind fun valid => ?_
      split
      · refine (insert_between [curr, pred] (by simp) (by simp) hlt).bind fun r => ?_
        exact unlock_both (l := behind r.1 r.2 range []) hne rfl rfl (insert_end r.1 r.2)
      · exact unlock_both (l := .fresh (some range)) hne rfl rfl ih

theorem insert_call_ok (fuel : ℕ) :
    (rely Hpu c).Triple h (Knows h (.fresh (some range))) (insert_call fuel range)
      fun es => Knows h ⟨none, none, none, es, []⟩ :=
  (insert_loop fuel fuel).bind fun _ => Rely.Triple.ret Knows.stable fun _ _ _ hk => hk

end Pspin.Lazylist
