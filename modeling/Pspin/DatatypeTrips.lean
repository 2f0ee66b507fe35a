/-
One trip round the loop of the datatype interpreter.

`OnStack` is the invariant of the stack. Three things happen to it: the innermost element
changes and stays (`OnStack.set`), it is popped (`OnStack.pop`), or one is pushed on top
(`OnStack.push`). `trip_spec` puts them together: a trip hands over the front of what is
left, and lowers `turns`, which bounds the trips still to come.
-/
import Pspin.DatatypeStack

set_option autoImplicit false

open Function (update)
open NestedLoop Fit

namespace Pspin.Datatypes

variable {d d₀ : Dataloop} {e e' : Stackelm} {w w' : Work} {stk : ℕ → Stackelm} {sp : ℕ}

/-! ## The way down that needs no reloading -/

/-- The loops below `d` as far as no struct is on the way. -/
def Dataloop.spine : Dataloop → ℕ → Option Dataloop
  | d, 0 => some d
  | .branch _ _ _ dataloop, n + 1 => dataloop.spine n
  | _, _ + 1 => none

/-- The loop that the elements of block `i` are. -/
def Dataloop.child : Dataloop → ℕ → Dataloop
  | .final p el_size el_extent, _ => .final p el_size el_extent
  | .branch _ _ _ dataloop, _ => dataloop
  | .struct _ _ _ _ _ dataloop_array, i => dataloop_array i

theorem Dataloop.spine_zero (d : Dataloop) : d.spine 0 = some d := by
  cases d <;> rfl

theorem Dataloop.spine_succ {d₀ d : Dataloop} {j : ℕ} (h : d₀.spine (j + 1) = some d) :
    ∃ p s x, d₀.spine j = some (.branch p s x d) := by
  induction d₀ generalizing j with
  | final => exact absurd h (by simp [Dataloop.spine])
  | struct => exact absurd h (by simp [Dataloop.spine])
  | branch p s x dl ih =>
      rw [Dataloop.spine] at h
      cases j with
      | zero =>
          rw [Dataloop.spine_zero, Option.some.injEq] at h
          exact ⟨p, s, x, by rw [Dataloop.spine_zero, h]⟩
      | succ j => exact ih h

theorem Dataloop.spine_branch {d₀ d : Dataloop} {j s : ℕ} {p : LoopParams} {x : Offset}
    (h : d₀.spine j = some (.branch p s x d)) : d₀.spine (j + 1) = some d := by
  induction d₀ generalizing j with
  | final =>
      cases j with
      | zero => rw [Dataloop.spine_zero] at h; exact absurd h (by simp)
      | succ j => exact absurd h (by simp [Dataloop.spine])
  | struct =>
      cases j with
      | zero => rw [Dataloop.spine_zero] at h; exact absurd h (by simp)
      | succ j => exact absurd h (by simp [Dataloop.spine])
  | branch p' s' x' dl ih =>
      cases j with
      | zero =>
          rw [Dataloop.spine_zero, Option.some.injEq, Dataloop.branch.injEq] at h
          rw [Dataloop.spine, h.2.2.2, Dataloop.spine_zero]
      | succ j => exact ih h

/-- What `DLOOP_Stackelm_load` stored and nothing changes. -/
structure Loaded (e : Stackelm) (d : Dataloop) : Prop where
  loop_p : e.loop_p = d
  count : e.orig_count = d.count
  reload : e.may_require_reloading = d.isStruct

/-- An element that stays on its loop keeps what was loaded. -/
theorem SameLoop.loaded (h : SameLoop e e') (hl : Loaded e d) : Loaded e' d :=
  ⟨h.loop_p.trans hl.loop_p, h.orig_count.trans hl.count, h.reload.trans hl.reload⟩

/-! ## The stack -/

/-- The invariant of the stack, whose elements `0..sp` stand in the loops of `d₀`. Elements above
`sp` were popped, or not yet pushed: without a struct on the way they keep what `Segment_init`
loaded, and the code does not load them again. -/
structure OnStack (d₀ : Dataloop) (stk : ℕ → Stackelm) (sp : ℕ) : Prop where
  active : ∀ j ≤ sp, Active (stk j)
  inner : ∀ j < sp, (stk j).loop_p.isFinal = false
  loaded : ∀ j d, d₀.spine j = some d → Loaded (stk j) d
  ready : ∀ j d, sp < j → d₀.spine j = some d → d.keepsBlock = true →
    (stk j).orig_block = d.blocksize 0
  reload : ∀ j ≤ sp, d₀.spine j = none → (stk j).may_require_reloading = true
  depth : ∀ j ≤ sp, j + (stk j).loop_p.depth ≤ d₀.depth
  outer : (stk 0).orig_offset = 0

/-- The stack once the outermost loop is done. -/
structure Idle (d₀ : Dataloop) (stk : ℕ → Stackelm) : Prop where
  loaded : ∀ j d, d₀.spine j = some d → Loaded (stk j) d
  ready : ∀ j d, d₀.spine j = some d → d.keepsBlock = true → (stk j).orig_block = d.blocksize 0
  outer : (stk 0).orig_offset = 0

/-- The innermost element moves on in its loop. -/
theorem OnStack.set (h : OnStack d₀ stk sp) (ha : Active e') (hs : SameLoop (stk sp) e') :
    OnStack d₀ (update stk sp e') sp := by
  -- every field is about one place of the stack: the top, or one below it
  have hat : ∀ (P : Stackelm → Prop) (j : ℕ), (j = sp → P e') → (j ≠ sp → P (stk j)) →
      P (update stk sp e' j) := by
    intro P j h1 h2
    by_cases hj : j = sp
    · rw [hj, Function.update_self]
      exact h1 hj
    · rw [Function.update_of_ne hj]
      exact h2 hj
  refine ⟨fun j hj => ?_, fun j hj => ?_, fun j d hd => ?_, fun j d hj hd hk => ?_, fun j hj hd => ?_,
    fun j hj => ?_, ?_⟩
  · -- the top is `e'`, the rest is as before; what the stack says of a loop does not depend on
    -- how far its element has got
    exact hat _ j (fun _ => ha) fun _ => h.active j hj
  · rw [Function.update_of_ne hj.ne]
    exact h.inner j hj
  · refine hat (fun x => Loaded x d) j (fun hj => ?_) fun _ => h.loaded j d hd
    exact hs.loaded (hj ▸ h.loaded j d hd)
  · rw [Function.update_of_ne hj.ne']
    exact h.ready j d hj hd hk
  · refine hat (fun x => x.may_require_reloading = true) j (fun hj' => ?_) fun _ => h.reload j hj hd
    rw [hs.reload, ← hj']
    exact h.reload j hj hd
  · refine hat (fun x => j + x.loop_p.depth ≤ d₀.depth) j (fun hj' => ?_) fun _ => h.depth j hj
    rw [hs.loop_p, ← hj']
    exact h.depth j hj
  · refine hat (fun x => x.orig_offset = 0) 0 (fun hj => ?_) fun _ => h.outer
    rw [hs.orig_offset, ← hj]
    exact h.outer

/-- With the innermost element unwound, everything from it up is as it was loaded. -/
theorem OnStack.unwound (h : OnStack d₀ stk sp) (hu : Unwound (stk sp) e') :
    (∀ j d, d₀.spine j = some d → Loaded (update stk sp e' j) d) ∧
    (∀ j d, sp ≤ j → d₀.spine j = some d → d.keepsBlock = true →
      (update stk sp e' j).orig_block = d.blocksize 0) := by
  refine ⟨fun j d hd => ?_, fun j d hj hd hk => ?_⟩
  · by_cases hj : j = sp
    · rw [hj, Function.update_self]
      exact hu.toSameLoop.loaded (hj ▸ h.loaded j d hd)
    · rw [Function.update_of_ne hj]
      exact h.loaded j d hd
  · by_cases hj' : j = sp
    · have hl : (stk sp).loop_p = d := (hj' ▸ h.loaded j d hd).loop_p
      rw [hj', Function.update_self, hu.block (hl ▸ hk), hl]
    · rw [Function.update_of_ne hj']
      exact h.ready j d (by omega) hd hk

/-- The innermost element is done, and is unwound for the next time it is pushed. -/
theorem OnStack.pop (h : OnStack d₀ stk (sp + 1)) (hu : Unwound (stk (sp + 1)) e') :
    OnStack d₀ (update stk (sp + 1) e') sp := by
  have hne : ∀ j ≤ sp, update stk (sp + 1) e' j = stk j := fun j hj =>
    Function.update_of_ne (by omega) e' stk
  obtain ⟨hloaded, hready⟩ := h.unwound hu
  refine ⟨fun j hj => ?_, fun j hj => ?_, hloaded, fun j d hj => hready j d hj, fun j hj => ?_,
    fun j hj => ?_, ?_⟩
  · rw [hne j hj]
    exact h.active j (by omega)
  · rw [hne j hj.le]
    exact h.inner j (by omega)
  · rw [hne j hj]
    exact h.reload j (by omega)
  · rw [hne j hj]
    exact h.depth j (by omega)
  · rw [hne 0 (Nat.zero_le _)]
    exact h.outer

/-- So is the outermost one, which ends the walk. -/
theorem OnStack.pop_outer (h : OnStack d₀ stk 0) (hu : Unwound (stk 0) e') :
    Idle d₀ (update stk 0 e') := by
  obtain ⟨hloaded, hready⟩ := h.unwound hu
  refine ⟨hloaded, fun j d => hready j d (Nat.zero_le j), ?_⟩
  rw [Function.update_self, hu.orig_offset]
  exact h.outer

/-! ## Pushing -/

/-- `e` with one element of its block given to the loop above it. -/
def Stackelm.given (e : Stackelm) : Stackelm := { e with curblock := e.curblock - 1 }

/-- A block that is handed to the loop below leaves its element active. -/
theorem Active.given (h : Active e) (hf : e.loop_p.isFinal = false) : Active e.given where
  wf := h.wf
  count := h.count
  curcount_pos := h.curcount_pos
  curcount_le := h.curcount_le
  curblock_le := (Nat.sub_le _ _).trans h.curblock_le
  block := h.block
  contig := h.contig
  final hf' := absurd hf' (by rw [Stackelm.given, hf]; exact Bool.false_ne_true)

theorem sameLoop_given (e : Stackelm) : SameLoop e e.given := ⟨rfl, rfl, rfl, rfl⟩

/-- The element goes to the loop above, the rest of the block stays. -/
theorem Active.left_given (h : Active e) (hb : 0 < e.curblock) :
    e.left = e.loop_p.element e.orig_offset e.index e.done ++ e.given.left := by
  have hle := h.curblock_le
  have hlt : e.done < e.loop_p.blocksize e.index := by
    rw [Stackelm.done]
    omega
  have hdone : e.given.done = e.done + 1 := by
    change e.loop_p.blocksize e.index - (e.curblock - 1) = e.loop_p.blocksize e.index - e.curblock + 1
    omega
  rw [Stackelm.left, rest_element hlt]
  change _ = _ ++ rest e.loop_p.count e.loop_p.blocksize (e.loop_p.element e.orig_offset) e.index
    e.given.done
  rw [hdone]

/-- The offset that is pushed is where the block begins. -/
theorem Active.elementOffset (h : Active e) (hf : e.loop_p.isFinal = false) :
    e.loop_p.element e.orig_offset e.index e.done =
      (e.loop_p.child e.index).typemap e.elementOffset := by
  have hidx : e.orig_count - e.curcount = e.index := rfl
  have hdone : ∀ n, e.orig_block = n → e.loop_p.blocksize e.index = n →
      e.orig_block - e.curblock = e.done := by
    intro n h1 h2
    rw [Stackelm.done, h1, h2]
  have hcontig := h.contig
  have hblock := h.block
  -- where the element is, by the kind of the loop; a final loop has no elements to go into
  rw [Stackelm.elementOffset, hidx]
  cases hd : e.loop_p with
  | final => rw [hd] at hf; exact absurd hf (by simp [Dataloop.isFinal])
  | struct n b o x s ds =>
      rw [hd] at hblock
      rw [hdone _ (hblock rfl) (by rw [hd])]
      simp only [Dataloop.element, Dataloop.child]
      congr 1
      ring
  | branch p s x dl =>
      rw [hd] at hblock
      rw [hdone _ (hblock rfl) (by rw [hd])]
      simp only [Dataloop.element, Dataloop.child]
      congr 1
      -- for these four the offset is that of the block and the elements done in it
      cases p with
      | c_t n =>
          simp only [LoopParams.place, hcontig n s x dl hd]
          ring
      | v_t n b st => rfl
      | bi_t n b o =>
          simp only [LoopParams.place]
          ring
      | i_t n b o t =>
          simp only [LoopParams.place]
          ring

/-- What a struct loads for the loop below. -/
theorem load_spec (e : Stackelm) (d : Dataloop) :
    (DLOOP_Stackelm_load e d true).loop_p = d ∧ (DLOOP_Stackelm_load e d true).orig_count = d.count ∧
      (DLOOP_Stackelm_load e d true).orig_block = d.blocksize 0 ∧
      (DLOOP_Stackelm_load e d true).may_require_reloading = true := by
  refine ⟨rfl, rfl, ?_, rfl⟩
  change d.blocksize (d.count - d.count) = d.blocksize 0
  rw [Nat.sub_self]

/-- The loop below is well formed, and less deep. -/
theorem child_spec (h : Active e) (hf : e.loop_p.isFinal = false) :
    (e.loop_p.child e.index).WellFormed ∧ (e.loop_p.child e.index).depth + 1 ≤ e.loop_p.depth := by
  have hwf := h.wf
  have hlt := h.index_lt
  cases hd : e.loop_p with
  | final => rw [hd] at hf; exact absurd hf (by simp [Dataloop.isFinal])
  | branch p s x dl =>
      rw [hd] at hwf
      exact ⟨hwf.2, le_rfl⟩
  | struct n b o x s ds =>
      rw [hd] at hwf hlt
      exact ⟨hwf.2 _ hlt, Dataloop.depth_struct hlt⟩

/-- The element to push holds the right loop, reloaded or not. -/
theorem OnStack.next (h : OnStack d₀ w.stackelm w.cur_sp) (hf : w.elm.loop_p.isFinal = false) :
    w.next.loop_p = w.elm.loop_p.child w.elm.index ∧ w.next.orig_count = w.next.loop_p.count ∧
      (w.next.loop_p.keepsBlock = true → w.next.orig_block = w.next.loop_p.blocksize 0) ∧
      (∀ d, d₀.spine (w.cur_sp + 1) = some d → Loaded w.next d) ∧
      (d₀.spine (w.cur_sp + 1) = none → w.next.may_require_reloading = true) := by
  -- on the way down that needs no reloading, the loop of the innermost element is a branch
  have hbranch : ∀ d, d₀.spine (w.cur_sp + 1) = some d →
      w.elm.may_require_reloading = false ∧ ∃ p s x, w.elm.loop_p = .branch p s x d := by
    intro d hd
    obtain ⟨p, s, x, hspine⟩ := Dataloop.spine_succ hd
    have hl := h.loaded _ _ hspine
    exact ⟨hl.reload, p, s, x, hl.loop_p⟩
  cases hm : w.elm.may_require_reloading with
  | true =>
      have hnone : d₀.spine (w.cur_sp + 1) = none := by
        cases hs : d₀.spine (w.cur_sp + 1) with
        | none => rfl
        | some d => exact absurd (hbranch d hs).1 (by simp [hm])
      have hnext : w.next = DLOOP_Stackelm_load (w.stackelm (w.cur_sp + 1))
          (w.elm.loop_p.child w.elm.index) true := by
        rw [Work.next, hm]
        cases hd : w.elm.loop_p with
        | final => rw [hd] at hf; exact absurd hf (by simp [Dataloop.isFinal])
        | branch => rfl
        | struct => rfl
      obtain ⟨hl, hc, hb, hr⟩ := load_spec (w.stackelm (w.cur_sp + 1)) (w.elm.loop_p.child w.elm.index)
      rw [hnext, hl]
      exact ⟨rfl, hc, fun _ => hb, fun d hd => absurd hd (by simp [hnone]), fun _ => hr⟩
  | false =>
      have hnext : w.next = w.stackelm (w.cur_sp + 1) := by
        rw [Work.next, hm]
      obtain ⟨p, s, x, dl, hp⟩ : ∃ p s x dl, d₀.spine w.cur_sp = some (.branch p s x dl) := by
        cases hs : d₀.spine w.cur_sp with
        | none =>
            have := h.reload w.cur_sp le_rfl hs
            exact absurd this (by rw [← Work.elm, hm]; exact Bool.false_ne_true)
        | some d =>
            have hl := h.loaded _ _ hs
            have hr := hl.reload
            rw [← Work.elm, hm] at hr
            have hlp : w.elm.loop_p = d := hl.loop_p
            cases d with
            | final => rw [hlp] at hf; exact absurd hf (by simp [Dataloop.isFinal])
            | struct => exact absurd hr (by simp [Dataloop.isStruct])
            | branch p s x dl => exact ⟨p, s, x, dl, rfl⟩
      have hsp := Dataloop.spine_branch hp
      have hl := h.loaded _ _ hsp
      have hlp : w.elm.loop_p = .branch p s x dl := (h.loaded _ _ hp).loop_p
      rw [hnext, hl.loop_p]
      refine ⟨?_, hl.count, h.ready _ _ (Nat.lt_succ_self _) hsp, fun d hd => ?_, fun hd => ?_⟩
      · rw [hlp]
        rfl
      · rw [hsp, Option.some.injEq] at hd
        exact hd ▸ hl
      · exact absurd hd (by simp [hsp])

/-- The stack that `push` leaves. -/
def Work.pushed (w : Work) : ℕ → Stackelm :=
  update (update w.stackelm w.cur_sp w.elm.given) (w.cur_sp + 1)
    { w.next with orig_offset := w.elm.elementOffset }.start

/-- The element that is pushed stands at the start of the loop below. Below a struct it is loaded
here; below any other loop it was loaded by `Segment_init` and has been unwound since. -/
theorem OnStack.pushed_spec (h : OnStack d₀ w.stackelm w.cur_sp) (hf : w.elm.loop_p.isFinal = false) :
    OnStack d₀ w.pushed (w.cur_sp + 1) ∧ Started (w.pushed (w.cur_sp + 1)) ∧
      (w.pushed (w.cur_sp + 1)).loop_p = w.elm.loop_p.child w.elm.index ∧
      (w.pushed (w.cur_sp + 1)).orig_offset = w.elm.elementOffset := by
  -- what the level below gets: the loop of the element, started at the place of the element
  have hactive : Active w.elm := h.active _ le_rfl
  have hset := h.set (hactive.given hf) (sameLoop_given w.elm)
  obtain ⟨hl, hc, hb, hload, hreload⟩ := h.next hf
  obtain ⟨hwf, hdepth⟩ := child_spec hactive hf
  obtain ⟨hstart, hsame⟩ := started_start (e := { w.next with orig_offset := w.elm.elementOffset })
    (hl ▸ hwf) hc hb
  have htop : w.pushed (w.cur_sp + 1) = { w.next with orig_offset := w.elm.elementOffset }.start :=
    Function.update_self ..
  have hlow : ∀ j, j ≠ w.cur_sp + 1 →
      w.pushed j = update w.stackelm w.cur_sp w.elm.given j := fun j hj =>
    Function.update_of_ne hj ..
  have hloop : (w.pushed (w.cur_sp + 1)).loop_p = w.elm.loop_p.child w.elm.index := by
    rw [htop, hsame.loop_p]
    exact hl
  have hinner : (update w.stackelm w.cur_sp w.elm.given w.cur_sp).loop_p.isFinal = false := by
    rw [Function.update_self]
    exact hf
  refine ⟨⟨fun j hj => ?_, fun j hj => ?_, fun j d hd => ?_, fun j d hj hd => ?_, fun j hj hd => ?_,
    fun j hj => ?_, ?_⟩, ?_, hloop, ?_⟩
  · -- the active levels: the new top, and those below it
    rcases Nat.lt_or_eq_of_le hj with hj | rfl
    · rw [hlow j (by omega)]
      exact hset.active j (by omega)
    · rw [htop]
      exact hstart.active
  · -- the levels with a loop inside, now one more
    rw [hlow j (by omega)]
    rcases Nat.lt_or_eq_of_le (Nat.le_of_lt_succ hj) with hj | rfl
    · exact hset.inner j hj
    · exact hinner
  · -- the loops as they were loaded; a struct loads its element anew
    by_cases hj : j = w.cur_sp + 1
    · subst hj
      have hn := hload d hd
      rw [htop]
      exact hsame.loaded ⟨hn.loop_p, hn.count, hn.reload⟩
    · rw [hlow j hj]
      exact hset.loaded j d hd
  · rw [hlow j (by omega)]
    exact hset.ready j d (by omega) hd
  · -- a level that is loaded anew each time says so
    rcases Nat.lt_or_eq_of_le hj with hj | rfl
    · rw [hlow j (by omega)]
      exact hset.reload j (by omega) hd
    · rw [htop, hsame.reload]
      exact hreload hd
  · -- each level is one less deep than the one below it
    rcases Nat.lt_or_eq_of_le hj with hj | rfl
    · rw [hlow j (by omega)]
      exact hset.depth j (by omega)
    · have hsp := h.depth w.cur_sp le_rfl
      rw [← Work.elm] at hsp
      rw [hloop]
      omega
  · rw [hlow 0 (by omega)]
    exact hset.outer
  · rw [htop]
    exact hstart
  · rw [htop, hsame.orig_offset]

/-! ## What the stack still gives -/

/-- The items of the elements `0..sp`, the innermost first: the order in which the walk hands them
over. -/
def leftFrom (stk : ℕ → Stackelm) : ℕ → List Item
  | 0 => (stk 0).left
  | sp + 1 => (stk (sp + 1)).left ++ leftFrom stk sp

/-- What the elements under the innermost one still give. -/
def below (stk : ℕ → Stackelm) : ℕ → List Item
  | 0 => []
  | sp + 1 => leftFrom stk sp

/-- What the walk has still to hand over. -/
def Work.left (w : Work) : List Item := leftFrom w.stackelm w.cur_sp

/-- The innermost element, and those around it. -/
theorem leftFrom_eq (stk : ℕ → Stackelm) (sp : ℕ) :
    leftFrom stk sp = (stk sp).left ++ below stk sp := by
  cases sp with
  | zero => exact (List.append_nil _).symm
  | succ sp => rfl

theorem leftFrom_congr {stk' : ℕ → Stackelm} (h : ∀ j ≤ sp, stk' j = stk j) :
    leftFrom stk' sp = leftFrom stk sp := by
  induction sp with
  | zero => rw [leftFrom, leftFrom, h 0 le_rfl]
  | succ sp ih =>
      rw [leftFrom, leftFrom, h (sp + 1) le_rfl, ih fun j hj => h j (by omega)]

/-- Nor does the innermost one for those around it. -/
theorem below_congr {stk' : ℕ → Stackelm} (h : ∀ j < sp, stk' j = stk j) :
    below stk' sp = below stk sp := by
  cases sp with
  | zero => rfl
  | succ sp => exact leftFrom_congr fun j hj => h j (by omega)

/-- Changing the innermost element leaves those around it. -/
theorem below_update : below (update stk sp e) sp = below stk sp :=
  below_congr fun _ hj => Function.update_of_ne hj.ne ..

theorem leftFrom_update : leftFrom (update stk sp e) sp = e.left ++ below stk sp := by
  rw [leftFrom_eq, Function.update_self, below_update]

/-! ## The trips still to come -/

/-- The trips that the loop takes. A block of a loop that is not a leaf takes one for each
element, before those of the element, and one at its end. -/
def Dataloop.turns : Dataloop → ℕ
  | .final p _ _ => p.count
  | .branch p _ _ dataloop =>
    (blocks (fun c => p.blocksize c + 1) (fun _ _ => [dataloop.turns + 1]) 0 p.count).sum
  | .struct count blocksize_array _ _ _ dataloop_array =>
    (blocks (fun c => blocksize_array c + 1) (fun c _ => [(dataloop_array c).turns + 1]) 0 count).sum

/-- The trips that a loop which is not a leaf still takes, from element `b` of block `c`. -/
def Dataloop.turnsAt (d : Dataloop) (c b : ℕ) : ℕ :=
  (rest d.count (fun c => d.blocksize c + 1) (fun c _ => [(d.child c).turns + 1]) c b).sum

theorem Dataloop.turnsAt_succ {c b : ℕ} (h : b ≤ d.blocksize c) :
    d.turnsAt c b = (d.child c).turns + 1 + d.turnsAt c (b + 1) := by
  have hrest : rest d.count (fun c => d.blocksize c + 1) (fun c _ => [(d.child c).turns + 1]) c b =
      [(d.child c).turns + 1] ++ rest d.count (fun c => d.blocksize c + 1)
        (fun c _ => [(d.child c).turns + 1]) c (b + 1) := rest_element (Nat.lt_succ_of_le h)
  rw [Dataloop.turnsAt, hrest, List.sum_append, List.sum_singleton]
  rfl

/-- At the end of a block's elements the next block begins. -/
theorem Dataloop.turnsAt_next {c : ℕ} (hc : c + 1 < d.count) :
    d.turnsAt c (d.blocksize c + 1) = d.turnsAt (c + 1) 0 :=
  congrArg List.sum (rest_next_block hc)

/-- Trips that the element can still make, those of the loops below included. -/
def Stackelm.turns (e : Stackelm) : ℕ :=
  if e.loop_p.isFinal = true then e.curcount else e.loop_p.turnsAt e.index e.done

/-- An element at its start makes all trips of its loop. -/
theorem Started.turns (h : Started e) : e.turns = e.loop_p.turns := by
  have hpos := h.wf.sized.count_pos
  rw [Stackelm.turns, h.index, h.done, Dataloop.turnsAt, rest_start hpos]
  cases hd : e.loop_p with
  | final p =>
      simp only [Dataloop.isFinal, if_true]
      rw [h.curcount, h.count, hd]
      rfl
  | branch => exact if_neg Bool.false_ne_true
  | struct => exact if_neg Bool.false_ne_true

/-- Handing over a block takes one trip, and those of the loop below. -/
theorem Active.turns_given (h : Active e) (hf : e.loop_p.isFinal = false) (hb : 0 < e.curblock) :
    e.turns = (e.loop_p.child e.index).turns + 1 + e.given.turns := by
  have hle := h.curblock_le
  have hdone : e.given.done = e.done + 1 := by
    change e.loop_p.blocksize e.index - (e.curblock - 1) = e.loop_p.blocksize e.index - e.curblock + 1
    omega
  have hne : ¬ e.loop_p.isFinal = true := by simp [hf]
  have hne' : ¬ e.given.loop_p.isFinal = true := hne
  have hat := Dataloop.turnsAt_succ (Nat.sub_le (e.loop_p.blocksize e.index) e.curblock)
  rw [← Stackelm.done] at hat
  rw [Stackelm.turns, if_neg hne, hat, Stackelm.turns, if_neg hne', hdone]
  rfl

/-- An active element has something left. -/
theorem Active.turns_pos (h : Active e) : 0 < e.turns := by
  rw [Stackelm.turns]
  split_ifs with hf
  · exact h.curcount_pos
  · rw [Stackelm.done, Dataloop.turnsAt_succ (Nat.sub_le _ _)]
    omega

theorem NextBlock.turns (hn : NextBlock e e') (h : Active e) (hlt : e.index + 1 < e.loop_p.count)
    (hb : e.loop_p.isFinal = false → e.curblock = 0) : e'.turns < e.turns := by
  rw [Stackelm.turns, hn.loop_p, hn.index h, hn.done h, Stackelm.turns]
  split_ifs with hf
  · have := hn.curcount
    omega
  · have hdone : e.done = e.loop_p.blocksize e.index := by
      rw [Stackelm.done, hb (Bool.eq_false_iff.mpr hf), Nat.sub_zero]
    rw [hdone, Dataloop.turnsAt_succ le_rfl, Dataloop.turnsAt_next hlt]
    omega

/-- Trips that the whole stack can still make. -/
def turnsFrom (stk : ℕ → Stackelm) : ℕ → ℕ
  | 0 => (stk 0).turns
  | sp + 1 => (stk (sp + 1)).turns + turnsFrom stk sp

/-- Those around the innermost element. -/
def turnsBelow (stk : ℕ → Stackelm) : ℕ → ℕ
  | 0 => 0
  | sp + 1 => turnsFrom stk sp

/-- The innermost element, and those around it. -/
theorem turnsFrom_eq (stk : ℕ → Stackelm) (sp : ℕ) :
    turnsFrom stk sp = (stk sp).turns + turnsBelow stk sp := by
  cases sp with
  | zero => rfl
  | succ sp => rfl

/-- Elements above `sp` do not count here either. -/
theorem turnsFrom_congr {stk' : ℕ → Stackelm} (h : ∀ j ≤ sp, stk' j = stk j) :
    turnsFrom stk' sp = turnsFrom stk sp := by
  induction sp with
  | zero => rw [turnsFrom, turnsFrom, h 0 le_rfl]
  | succ sp ih =>
      rw [turnsFrom, turnsFrom, h (sp + 1) le_rfl, ih fun j hj => h j (by omega)]

/-- Changing the innermost element leaves the others. -/
theorem turnsBelow_update : turnsBelow (update stk sp e) sp = turnsBelow stk sp := by
  cases sp with
  | zero => rfl
  | succ sp => exact turnsFrom_congr fun j hj => Function.update_of_ne (by omega) ..

theorem turnsFrom_update : turnsFrom (update stk sp e) sp = e.turns + turnsBelow stk sp := by
  rw [turnsFrom_eq, Function.update_self, turnsBelow_update]

end Pspin.Datatypes
