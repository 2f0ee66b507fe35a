/-
`lazylist.h` used by several HPUs: `lazylist_pop_front` among other calls.

From the first read behind the validation on, the front is the node behind the left
sentinel. The call holds its lock, so that no other call changes the link to it.
-/
import Pspin.LazylistOutline

set_option autoImplicit false

namespace Pspin.Lazylist

open Interleave LinkedPath RangeList
open Function (update)

variable {Hpu : Type} [DecidableEq Hpu] {s : shared_t Hpu} {g g' : ghost_t Hpu} {h : Hpu} {c : ℕ}
  {l : local_t} {front front_next : ℕ} {range : lazylist_range_t}

/-- The front of the list, which the call has locked and validated. -/
structure Front (c : ℕ) (h : Hpu) (front front_next : ℕ) (range : lazylist_range_t)
    (s : shared_t Hpu) (g : ghost_t Hpu) : Prop where
  held : g.holder front = some h
  mem : front ∈ g.chain
  head : s.list.next_idx (c - 2) = front
  next : s.list.next_idx front = front_next
  left : s.list.left front = range.left
  right : s.list.right front = range.right

theorem Front.stable (hlt : front < c - 2) :
    (rely Hpu c).Stable h (Front c h front front_next range) := by
  intro s g s' g' hf hr hI
  have hn : s.list.head_idx = c - 2 := hr.head.symm.trans hI.shape.head
  refine ⟨hr.holder _ hf.held, hr.mem _ hf.mem hf.held, ?_, ?_,
    (hr.left _ hf.mem hf.held).trans hf.left, (hr.right _ hf.mem hf.held).trans hf.right⟩
  · have := hr.front front hf.mem hf.held (hn ▸ hf.head)
    rwa [hn] at this
  · exact (hr.next front hf.mem hf.held (hn ▸ hlt.ne)).trans hf.next

/-- What a call knows while it removes the front. -/
def Removes (c : ℕ) (h : Hpu) (l : local_t) (front front_next : ℕ) (range : lazylist_range_t)
    (s : shared_t Hpu) (g : ghost_t Hpu) : Prop :=
  Knows h l s g ∧ Front c h front front_next range s g

theorem Removes.stable (hlt : front < c - 2) :
    (rely Hpu c).Stable h (Removes c h l front front_next range) :=
  Rely.Stable.and Knows.stable (Front.stable hlt)

/-- The first node behind the left sentinel. -/
theorem Inv.front_chain (hI : Inv (c - 2) s g) (hh : s.list.next_idx (c - 2) = front) :
    ∃ Y, g.chain = (c - 2) :: front :: Y := by
  obtain ⟨l, hl⟩ := hI.shape.ends
  obtain ⟨i, Y, hY⟩ : ∃ i Y, l ++ [c - 2 + 1] = i :: Y := List.exists_cons_of_ne_nil (by simp)
  rw [hY] at hl
  have hp := hl ▸ hI.shape.linked
  obtain rfl : front = i := hh.symm.trans hp.2.2.1
  exact ⟨Y, hl⟩

theorem Inv.front_lt (hI : Inv (c - 2) s g) (hh : s.list.next_idx (c - 2) = front)
    (hne : front ≠ c - 2 + 1) : front ∈ g.chain ∧ front < c - 2 := by
  obtain ⟨Y, hY⟩ := hI.front_chain hh
  have hnd := hI.shape.linked.nodup
  rw [hY, List.nodup_cons] at hnd
  have hmem : front ∈ g.chain := by simp [hY]
  have hle := hI.shape.chain_le front hmem
  have hn : front ≠ c - 2 := fun he => hnd.1 (he ▸ List.mem_cons_self)
  exact ⟨hmem, by omega⟩

/-- The first read behind the validation. -/
theorem remove (hf : front ∈ l.locks) (hne : front ≠ c - 2 + 1)
    (hlt : front_next < NUM_SEGMENTS + 2) :
    (rely Hpu c).Triple h (Knows h l) (noted (.remove front front_next) (.left front))
      fun left s g => (front < c - 2 ∧ front_next ≤ c - 2 + 1) ∧
        ∃ right, Removes c h l front front_next ⟨left, right⟩ s g := by
  refine read (fun _ => rfl) (fun _ => rfl) Knows.stable (fun _ => ?_) fun s g hI hk hm _ => ?_
  · exact Rely.Stable.guard fun hn => Rely.Stable.of_exists fun _ => Removes.stable hn.1
  · obtain ⟨hhead, hnext⟩ := hm
    rw [hI.shape.head] at hhead
    obtain ⟨hmem, hn⟩ := hI.front_lt hhead hne
    have hE : front_next ≠ EOL := by
      have : NUM_SEGMENTS + 2 < EOL := by decide
      omega
    have hnm : front_next ∈ g.chain := hnext ▸ hI.shape.linked.next_mem hmem (hnext ▸ hE)
    exact ⟨⟨hn, hI.shape.chain_le _ hnm⟩, s.list.right front, hk,
      ⟨hk.locks front hf, hmem, hhead, hnext, rfl, rfl⟩⟩

/-- What a call knows once it has given the range to its caller. -/
def given (flight leaving : Option ℕ) (range : lazylist_range_t) (locks : List ℕ) : local_t :=
  ⟨flight, leaving, none, [.popped range], locks⟩

theorem remove_front (locks : List ℕ) (hf : front ∈ locks) (hne : front ≠ c - 2 + 1)
    (hlt : front_next < NUM_SEGMENTS + 2) :
    (rely Hpu c).Triple h (Knows h ⟨none, none, none, [], locks⟩)
      (lazylist_remove_front (c - 2) front front_next) fun r s g =>
        r.2 = front ∧ Knows h (given (some front) none r.1 locks) s g := by
  refine (remove hf hne hlt).bind fun left => ?_
  apply Rely.Triple.pure
  rintro ⟨hn, hn'⟩
  apply Rely.Triple.of_exists
  intro right
  have hst {l : local_t} :
      (rely Hpu c).Stable h (Removes c h l front front_next ⟨left, right⟩) := Removes.stable hn
  refine (read_known (x := right) (fun _ => rfl) hst fun s g _ hA => hA.2.right).bind fun right => ?_
  apply Rely.Triple.pure
  rintro rfl
  refine (read_known (x := front) (fun _ => rfl) hst fun s g hI _ =>
    hI.shape.idx front (by omega)).bind fun front_idx => ?_
  apply Rely.Triple.pure
  rintro rfl
  -- the range is given to the caller
  refine (store hst (hst (l := given none (some front_idx) ⟨left, right⟩ locks))
    fun s g list hI hA _ hs => ?_).bind fun _ => ?_
  · obtain ⟨hk, hfr⟩ := hA
    obtain rfl := mark_store hs
    have hstep := hI.popped hfr.held hk.leaving hfr.mem hn (update s.list.marks front_idx 1)
    rw [hfr.left, hfr.right] at hstep
    exact ⟨g, hstep,
      { hk with
        leaving := Function.update_self _ _ _
        pending := nofun
        events := by
          rw [events_self (s := s) rfl, hk.events, List.append_nil]
          rfl },
      { hfr with }⟩
  refine (read_known (x := front_next) (fun _ => rfl) hst fun s g hI _ =>
    hI.shape.idx front_next hn').bind fun next_idx => ?_
  apply Rely.Triple.pure
  rintro rfl
  -- the node is unlinked
  refine (store hst (Knows.stable (l := given (some front_idx) none ⟨left, right⟩ locks))
    fun s g list hI hA _ hs => ?_).bind fun _ => ?_
  · obtain ⟨hk, hfr⟩ := hA
    obtain rfl := node_store hs
    obtain ⟨Y, hY⟩ := hI.front_chain hfr.head
    have hstep := hI.unlinked (X := []) (Or.inl rfl) hk.leaving hY
    rw [hfr.next] at hstep
    exact ⟨_, hstep,
      { hk with
        flight := Function.update_self _ _ _
        leaving := Function.update_self _ _ _ }⟩
  refine (read_known (x := front_idx) (fun _ => rfl) Knows.stable fun s g hI _ =>
    hI.shape.idx front_idx (by omega)).bind fun to_delete_idx => ?_
  apply Rely.Triple.pure
  rintro rfl
  exact Rely.Triple.ret Knows.stable fun s g _ hk => ⟨rfl, hk⟩

/-! ## The call -/

/-- What has been popped when the call returns `range`. -/
def pop_events (range : Option lazylist_range_t) : List event_t :=
  match range with
  | none => []
  | some range => [.popped range]

theorem pop_front_loop (range_left : ℤ) (turns : ℕ) :
    (rely Hpu c).Triple h (Knows h (.fresh none)) (lazylist_pop_front_loop range_left turns)
      fun range => Knows h ⟨none, none, none, pop_events range, []⟩ := by
  induction turns with
  | zero => exact Rely.Triple.unfinished
  | succ turns ih =>
      have hst : (rely Hpu c).Stable h (Knows h (.fresh none)) := Knows.stable
      have hret : (rely Hpu c).Triple h (Knows h (.fresh none)) (.ret none)
          fun range => Knows h ⟨none, none, none, pop_events range, []⟩ :=
        Rely.Triple.ret hst fun _ _ _ hk => hk
      refine (keep (fun _ => rfl) hst).bind fun head_idx => ?_
      split
      · exact hret
      refine (read_known (x := c - 2) (fun _ => rfl) hst fun s g hI _ => hI.shape.head).bind
        fun head_sentinel => ?_
      apply Rely.Triple.pure
      rintro rfl
      refine (keep (fun _ => rfl) hst).bind fun front => ?_
      refine (keep (fun _ => rfl) hst).bind fun front_next => ?_
      -- the right sentinel is not the front
      have hread : (rely Hpu c).Triple h (Knows h (.fresh none)) (on (.left front)) fun left s g =>
          (left ≠ INT32_MAX → front ≠ c - 2 + 1) ∧ Knows h (.fresh none) s g := by
        refine read (fun _ => rfl) (fun _ => rfl) hst
          (fun _ => Rely.Stable.and (Rely.Stable.pure _) hst) fun s g hI hk _ _ => ⟨?_, hk⟩
        rintro hne rfl
        exact hne hI.order.sentinel_right.1
      refine hread.bind fun left => ?_
      apply Rely.Triple.pure
      intro hne
      split
      · exact hret
      have hne := hne ‹_›
      refine (Rely.Triple.readOnly readOnly_starts_elsewhere hst).bind fun elsewhere => ?_
      split
      · exact hret
      refine lock_node.bind fun _ => ?_
      apply Rely.Triple.pure
      intro _
      refine lock_node.bind fun _ => ?_
      apply Rely.Triple.pure
      rintro ⟨hlt, hnf⟩
      have hnf : front ≠ front_next := by simpa [local_t.fresh, eq_comm] using hnf
      refine (Rely.Triple.readOnly readOnly_validate_front Knows.stable).bind fun valid => ?_
      split
      · refine (remove_front [front_next, front] (by simp) hne hlt).bind fun r => ?_
        apply Rely.Triple.pure
        rintro rfl
        refine unlock_both (l := given (some r.2) none r.1 []) hnf rfl rfl ?_
        exact (put_free_node rfl).bind fun _ => Rely.Triple.ret Knows.stable fun _ _ _ hk => hk
      · exact unlock_both (l := .fresh none) hnf rfl rfl ih

theorem pop_front_call_ok (fuel : ℕ) (range_left : ℤ) :
    (rely Hpu c).Triple h (Knows h (.fresh none)) (pop_front_call fuel range_left)
      fun es => Knows h ⟨none, none, none, es, []⟩ := by
  refine (pop_front_loop range_left fuel).bind fun range => ?_
  cases range with
  | none => exact Rely.Triple.ret Knows.stable fun _ _ _ hk => hk
  | some range => exact Rely.Triple.ret Knows.stable fun _ _ _ hk => hk

end Pspin.Lazylist
