/-
Whole calls of `spin_segment_manipulate`, in any order of the packets.

Between two calls the segment stands at a position in the message (`Standing`). A call for
the bytes from `first` to `last` first brings it to `first`, going back to the start when it
is already behind, and then copies. Only the outermost element is set back by
`DLOOP_SEGMENT_RESET_VALUES`, so a call may go back in the middle of a message only if no
loop that is used again keeps a block size of its own (`Resettable`).
-/
import Pspin.DatatypeRuns

set_option autoImplicit false

open Function (update)
open NestedLoop Fit

namespace Pspin.Datatypes

variable {d d₀ : Dataloop} {segp : Segment} {first last fuel : ℕ} {params : Option Params}

def Dataloop.size (d : Dataloop) : ℕ := total Item.size (d.typemap 0)

/-- A position in the message between two elements. -/
def Boundary (d : Dataloop) (n : ℕ) : Prop := ∃ done left, d.typemap 0 = done ++ left ∧ total Item.size done = n

/-- Every loop that may be started again without being reloaded has blocks of one size. -/
def Resettable (d₀ : Dataloop) : Prop :=
  ∀ j d, 0 < j → d₀.spine j = some d → d.keepsBlock = true →
    ∀ i < d.count, d.blocksize i = d.blocksize 0

def Segment.left (segp : Segment) : List Item :=
  match segp.cur_sp with
  | none => []
  | some sp => leftFrom segp.stackelm sp

/-- The segment of `d₀` between two calls. -/
structure Standing (d₀ : Dataloop) (segp : Segment) : Prop where
  idle : segp.cur_sp = none → Idle d₀ segp.stackelm
  onStack : ∀ sp, segp.cur_sp = some sp →
    OnStack d₀ segp.stackelm sp ∧ turnsFrom segp.stackelm sp ≤ d₀.turns
  position : ∃ done, d₀.typemap 0 = done ++ segp.left ∧ total Item.size done = segp.stream_off

/-- What a call leaves. -/
structure Called (d₀ : Dataloop) (segp : Segment) (params : Option Params) (P : List Item)
    (r : Result) : Prop where
  standing : Standing d₀ r.segment
  left : segp.left = P ++ r.segment.left
  stream_off : r.segment.stream_off = segp.stream_off + total Item.size P
  lastp : r.lastp = r.segment.stream_off
  issued : ∀ p, params = some p → bytes r.issued = copies p P
  nonempty : ∀ m ∈ r.issued, 0 < m.size

/-- Where a walk of the segment starts. -/
def Segment.work (segp : Segment) (sp : ℕ) (params : Option Params) : Work :=
  ⟨segp.stackelm, sp, segp.stream_off, params, []⟩

theorem Standing.room {sp : ℕ} (h : Standing d₀ segp) (hsp : segp.cur_sp = some sp)
    (hsize : d₀.size < 2 ^ 64) (hle : segp.stream_off ≤ last) (hlast : last < SEGMENT_IGNORE_LAST)
    (hp : params ≠ none → last < 2 ^ 32) : Room (segp.work sp params) last := by
  obtain ⟨done, hmap, hdone⟩ := h.position
  have hleft : segp.left = leftFrom segp.stackelm sp := by rw [Segment.left, hsp]
  refine ⟨hle, hlast, ?_, hp⟩
  change segp.stream_off + total Item.size (leftFrom segp.stackelm sp) < 2 ^ 64
  rw [← hdone, ← hleft, ← total_append, ← hmap]
  exact hsize

theorem walk_spec (last : ℕ) (params : Option Params) (h : Standing d₀ segp) (hsp : segp.cur_sp ≠ none) (hfuel : d₀.turns < fuel)
    (hsize : d₀.size < 2 ^ 64) (hle : segp.stream_off ≤ last) (hlast : last < SEGMENT_IGNORE_LAST)
    (hp : params ≠ none → last < 2 ^ 32) :
    ∃ r, walk fuel segp last params = some r ∧
      Called d₀ segp params (fit Item.size (last - segp.stream_off) segp.left) r := by
  obtain ⟨sp, hsp⟩ := Option.ne_none_iff_exists'.mp hsp
  obtain ⟨hon, hturns⟩ := h.onStack sp hsp
  obtain ⟨done, hmap, hdone⟩ := h.position
  have hleft : segp.left = leftFrom segp.stackelm sp := by rw [Segment.left, hsp]
  -- the trips from the top of the stack
  obtain ⟨w', cs, hrun, hw⟩ := trips_spec (w := segp.work sp params) hon
    (h.room hsp hsize hle hlast hp) (lt_of_le_of_lt hturns hfuel)
  have hwleft : (segp.work sp params).left = segp.left := hleft.symm
  obtain ⟨hmoved, hnone, hsome⟩ := hw
  rw [hwleft] at hmoved hnone hsome
  -- what does not fit is what the segment has left
  have hrest : segp.left = fit Item.size (last - segp.stream_off) segp.left ++
      (Segment.mk w'.stream_off w'.stackelm cs).left := by
    cases hcs : cs with
    | none =>
        have hnil : (Segment.mk w'.stream_off w'.stackelm none).left = [] := rfl
        rw [hnil, List.append_nil]
        exact (hnone hcs).2.symm
    | some sp' =>
        obtain ⟨hsp', -, hleft', -⟩ := hsome sp' hcs
        rw [hsp']
        exact hleft'
  have hwalk : walk fuel segp last params =
      some ⟨⟨w'.stream_off, w'.stackelm, cs⟩, w'.stream_off, w'.params, w'.issued⟩ := by
    rw [Segment.work] at hrun
    simp only [walk, hsp, hrun]
  refine ⟨_, hwalk, ⟨fun hcs => (hnone hcs).1, fun sp' hcs => ?_, ?_⟩,
    hrest, hmoved.stream_off, rfl, fun p hpp => (hmoved.some p hpp).2,
    hmoved.nonempty fun m hm => absurd hm List.not_mem_nil⟩
  · -- the segment can be walked on from where it stopped
    obtain ⟨rfl, hon', -, hturns'⟩ := hsome sp' hcs
    exact ⟨hon', hturns'.trans hturns⟩
  · -- and its position is the one before and what has been moved
    refine ⟨done ++ fit Item.size (last - segp.stream_off) segp.left, ?_, ?_⟩
    · rw [List.append_assoc, ← hrest]
      exact hmap
    · rw [total_append, hdone]
      exact hmoved.stream_off.symm

/-! ## Going back to the start -/

theorem Standing.loaded (h : Standing d₀ segp) :
    (∀ j d, d₀.spine j = some d → Loaded (segp.stackelm j) d) ∧ (segp.stackelm 0).orig_offset = 0 := by
  cases hsp : segp.cur_sp with
  | none => exact ⟨(h.idle hsp).loaded, (h.idle hsp).outer⟩
  | some sp => exact ⟨(h.onStack sp hsp).1.loaded, (h.onStack sp hsp).1.outer⟩

theorem Standing.ready (h : Standing d₀ segp) (hr : segp.cur_sp = none ∨ Resettable d₀) {j : ℕ}
    (hj : 0 < j) (hd : d₀.spine j = some d) (hk : d.keepsBlock = true) :
    (segp.stackelm j).orig_block = d.blocksize 0 := by
  cases hsp : segp.cur_sp with
  | none => exact (h.idle hsp).ready j d hd hk
  | some sp =>
      have hres : Resettable d₀ := hr.resolve_left (by simp [hsp])
      have hon := (h.onStack sp hsp).1
      by_cases hjsp : j ≤ sp
      · have ha := hon.active j hjsp
        have hl := (hon.loaded j d hd).loop_p
        have hidx := ha.index_lt
        rw [hl] at hidx
        rw [ha.block (hl ▸ hk), hl]
        exact hres j d hj hd hk _ hidx
      · exact hon.ready j d (by omega) hd hk

theorem restart_spec (e : Stackelm) : SameLoop e e.restart ∧ e.restart.curcount = e.orig_count ∧
    e.restart.curblock = e.loop_p.blocksize 0 ∧
    e.restart.curoffset = e.orig_offset + e.loop_p.offset 0 ∧
    e.restart.orig_block = e.loop_p.blocksize 0 := by
  refine ⟨⟨rfl, rfl, rfl, rfl⟩, rfl, ?_, ?_, ?_⟩
  · simp only [Stackelm.restart, DLOOP_Stackelm_blocksize, Nat.sub_self]
  · simp only [Stackelm.restart, DLOOP_Stackelm_offset, Nat.sub_self]
  · simp only [Stackelm.restart, DLOOP_Stackelm_blocksize, Nat.sub_self]

/-- The outermost element is started and those above it are as they were loaded. -/
theorem standing_first {stk : ℕ → Stackelm} (hstart : Started (stk 0)) (houter : (stk 0).orig_offset = 0)
    (hloaded : ∀ j d, d₀.spine j = some d → Loaded (stk j) d)
    (hready : ∀ j d, 0 < j → d₀.spine j = some d → d.keepsBlock = true →
      (stk j).orig_block = d.blocksize 0) :
    Standing d₀ ⟨0, stk, some 0⟩ := by
  have hl := (hloaded 0 d₀ (Dataloop.spine_zero d₀)).loop_p
  have hon : OnStack d₀ stk 0 := by
    refine ⟨fun j hj => ?_, fun j hj => absurd hj (Nat.not_lt_zero j), hloaded, hready,
      fun j hj hd => ?_, fun j hj => ?_, houter⟩
    · rw [Nat.le_zero.mp hj]
      exact hstart.active
    · rw [Nat.le_zero.mp hj, Dataloop.spine_zero] at hd
      exact absurd hd (by simp)
    · rw [Nat.le_zero.mp hj, hl, Nat.zero_add]
  refine ⟨fun hn => absurd hn (Option.some_ne_none 0), fun sp hsp => ?_, [], ?_, rfl⟩
  · rw [← Option.some.inj hsp, turnsFrom, hstart.turns, hl]
    exact ⟨hon, le_rfl⟩
  · change d₀.typemap 0 = leftFrom stk 0
    rw [leftFrom, hstart.left, hl, houter]

theorem reset_spec (h : Standing d₀ segp) (hwf : d₀.WellFormed)
    (hr : segp.cur_sp = none ∨ Resettable d₀) : Standing d₀ (reset segp) := by
  obtain ⟨hloaded, houter⟩ := h.loaded
  have hl := hloaded 0 d₀ (Dataloop.spine_zero d₀)
  obtain ⟨hsame, hcc, hcb, hco, hob⟩ := restart_spec (segp.stackelm 0)
  rw [reset]
  generalize (segp.stackelm 0).restart = e at *
  have hel : Loaded e d₀ := hsame.loaded hl
  have hat : ∀ j, j ≠ 0 → update segp.stackelm 0 e j = segp.stackelm j := fun j hj =>
    Function.update_of_ne hj ..
  -- the outermost level starts again; the others were ready to be started again
  refine standing_first ?_ ?_ (fun j d hd => ?_) (fun j d hj hd hk => ?_)
  · rw [Function.update_self]
    refine ⟨hel.loop_p ▸ hwf, ?_, ?_, ?_, ?_, fun _ => ?_⟩
    · rw [hel.count, hel.loop_p]
    · rw [hcc, hsame.orig_count]
    · rw [hcb, hsame.loop_p]
    · rw [hco, hsame.orig_offset, hsame.loop_p]
    · rw [hob, hsame.loop_p]
  · rw [Function.update_self, hsame.orig_offset]
    exact houter
  · -- every level keeps its loop
    by_cases hj : j = 0
    · subst hj
      rw [Dataloop.spine_zero, Option.some.injEq] at hd
      rw [Function.update_self, ← hd]
      exact hel
    · rw [hat j hj]
      exact hloaded j d hd
  · rw [hat j hj.ne']
    exact h.ready hr hj hd hk

/-! ## One call -/

theorem Standing.done_of_none (h : Standing d₀ segp) (hn : segp.cur_sp = none) :
    segp.stream_off = d₀.size := by
  obtain ⟨done, hmap, hdone⟩ := h.position
  rw [Segment.left, hn, List.append_nil] at hmap
  rw [← hdone, ← hmap, Dataloop.size]

/-- Behind `first` the segment stays as it is, and else it goes back to the start. -/
theorem back_spec (h : Standing d₀ segp) (hwf : d₀.WellFormed)
    (hback : segp.stream_off ≤ first ∨ segp.cur_sp = none ∨ Resettable d₀) :
    Standing d₀ (if first < segp.stream_off then reset segp else segp) ∧
      (if first < segp.stream_off then reset segp else segp).stream_off ≤ first := by
  split_ifs with hbehind
  · exact ⟨reset_spec h hwf (hback.resolve_left (by omega)), Nat.zero_le _⟩
  · exact ⟨h, not_lt.mp hbehind⟩

/-- Brought to `first`, which is not behind. -/
theorem advance_spec (h : Standing d₀ segp) (hwf : d₀.WellFormed) (hfuel : d₀.turns < fuel)
    (hsize : d₀.size < SEGMENT_IGNORE_LAST) (hb : Boundary d₀ first) (hlt : first < d₀.size)
    (hle : segp.stream_off ≤ first) :
    ∃ segp', advance fuel segp first = some segp' ∧ Standing d₀ segp' ∧ segp'.stream_off = first := by
  rw [advance]
  split_ifs with heq
  · exact ⟨segp, rfl, h, heq.symm⟩
  · have hsp : segp.cur_sp ≠ none := fun hn => by
      have := h.done_of_none hn
      omega
    obtain ⟨r, hrun, hr⟩ := walk_spec first none h hsp hfuel
      (hsize.trans (by decide)) hle (hlt.trans hsize) (fun hn => absurd rfl hn)
    refine ⟨r.segment, by rw [hrun]; rfl, hr.standing, ?_⟩
    -- what fits up to `first` is what is between the two positions
    obtain ⟨done, hmap, hdone⟩ := h.position
    obtain ⟨D, L, hmap', hD⟩ := hb
    have hpos : ∀ i ∈ L.head?, 0 < i.size := fun i hi =>
      hwf.item_pos i (hmap' ▸ List.mem_append_right D (List.mem_of_mem_head? hi))
    have hfit := fit_total (P := D) hpos
    rw [← hmap', hmap, fit_append (by omega), hdone, hD] at hfit
    have htotal := congrArg (total Item.size) hfit
    rw [total_append, hdone, hD] at htotal
    rw [hr.stream_off]
    exact htotal

/-- A call copies the elements from `first` on that end before `last`. -/
theorem manipulate_spec (h : Standing d₀ segp) (hwf : d₀.WellFormed) (hfuel : d₀.turns < fuel)
    (hsize : d₀.size < SEGMENT_IGNORE_LAST) (hb : Boundary d₀ first) (hlt : first < d₀.size)
    (hfl : first < last) (hlast : last < 2 ^ 32) (p : Params)
    (hback : segp.stream_off ≤ first ∨ segp.cur_sp = none ∨ Resettable d₀) :
    ∃ r D P L, spin_segment_manipulate fuel segp first last (some p) = some r ∧
      Standing d₀ r.segment ∧ r.lastp = r.segment.stream_off ∧
      d₀.typemap 0 = D ++ (P ++ L) ∧ total Item.size D = first ∧
      total Item.size D + total Item.size P = r.lastp ∧
      P = fit Item.size (last - first) (P ++ L) ∧ bytes r.issued = copies p P ∧
      ∀ m ∈ r.issued, 0 < m.size := by
  -- back to the start if the call is behind, then forwards to `first`, then the walk that copies
  obtain ⟨hstand₁, hle₁⟩ := back_spec h hwf hback
  generalize hsegp₁ : (if first < segp.stream_off then reset segp else segp) = segp₁ at *
  obtain ⟨segp₂, hadv, hstand₂, hfirst⟩ := advance_spec hstand₁ hwf hfuel hsize hb hlt hle₁
  have hsp₂ : segp₂.cur_sp ≠ none := fun hn => by
    have := hstand₂.done_of_none hn
    omega
  obtain ⟨r, hrun, hr⟩ := walk_spec last (some p) hstand₂ hsp₂ hfuel
    (hsize.trans (by decide)) (by omega) (hlast.trans (by decide)) fun _ => hlast
  obtain ⟨D, hmap, hD⟩ := hstand₂.position
  rw [hfirst] at hr hD
  refine ⟨r, D, fit Item.size (last - first) segp₂.left, r.segment.left, ?_, hr.standing, hr.lastp, ?_,
    hD, ?_, ?_, hr.issued p rfl, hr.nonempty⟩
  · simp only [spin_segment_manipulate, if_neg hfl.ne, hsegp₁, hadv, hrun]
  · rw [← hr.left]
    exact hmap
  · rw [hD, hr.lastp, hr.stream_off, hfirst]
  · rw [← hr.left]

/-- The bytes of the message from `first` to `last`, each with its place in the buffer. -/
def slice (d : Dataloop) (userbuf : Offset) (first last : ℕ) : List Offset :=
  (((addresses (d.typemap 0)).drop first).take (last - first)).map fun a => userbuf + a

theorem slice_eq {D P L : List Item} (hmap : d.typemap 0 = D ++ (P ++ L))
    (hD : total Item.size D = first) (hP : total Item.size D + total Item.size P = last)
    (userbuf : Offset) :
    slice d userbuf first last = (addresses P).map fun a => userbuf + a := by
  have hlen : (addresses D).length = first := by rw [addresses_length, hD]
  have hlen' : (addresses P).length = last - first := by
    rw [addresses_length]
    omega
  rw [slice, hmap, addresses_append, addresses_append, List.drop_left' hlen, List.take_left' hlen']

theorem boundary_unique {D D' L L' : List Item} (hwf : d.WellFormed) (hmap : d.typemap 0 = D ++ L)
    (hmap' : d.typemap 0 = D' ++ L') (hle : total Item.size D ≤ total Item.size D') :
    ∃ M, D' = D ++ M ∧ L = M ++ L' := by
  have heq := hmap.symm.trans hmap'
  rcases List.append_eq_append_iff.mp heq with ⟨M, hD', hL⟩ | ⟨M, hD, hL'⟩
  · exact ⟨M, hD', hL⟩
  · -- `D` is at least as long, so nothing is between them
    cases M with
    | nil =>
        rw [List.append_nil] at hD
        exact ⟨[], by rw [hD, List.append_nil], hL'.symm⟩
    | cons i M =>
        have hi : 0 < i.size := hwf.item_pos i (by rw [hmap, hD]; simp)
        rw [hD, total_append, total_cons] at hle
        omega

/-- **A call copies the message from `first` to the last element boundary at or before
`last`, every byte to its place, and stands there afterwards.** -/
theorem manipulate_copies {n : ℕ} {p : Params} (h : Standing d₀ segp) (hwf : d₀.WellFormed)
    (hsize : d₀.size < SEGMENT_IGNORE_LAST) (hb : Boundary d₀ first) (hlt : first < d₀.size)
    (hfl : first < last) (hlast : last < 2 ^ 32)
    (hback : segp.stream_off ≤ first ∨ segp.cur_sp = none ∨ Resettable d₀) (hn : d₀.turns < n) :
    ∃ r, spin_segment_manipulate n segp first last (some p) = some r ∧
      Standing d₀ r.segment ∧ r.segment.stream_off = r.lastp ∧
      Boundary d₀ r.lastp ∧ r.lastp ≤ last ∧ (∀ b, Boundary d₀ b → b ≤ last → b ≤ r.lastp) ∧
      bytes r.issued = (slice d₀ p.userbuf first r.lastp).zip
        (List.range' p.streambuf (r.lastp - first)) ∧
      ∀ m ∈ r.issued, 0 < m.size := by
  obtain ⟨r, D, P, L, hrun, hstand, hlastp, hmap, hD, hP, hfit, hbytes, hnonempty⟩ :=
    manipulate_spec h hwf hn hsize hb hlt hfl hlast p hback
  have htotal : total Item.size P ≤ last - first := by
    rw [hfit]
    exact total_fit_le _ _ _
  have hmap' : d₀.typemap 0 = (D ++ P) ++ L := by rw [hmap, List.append_assoc]
  refine ⟨r, hrun, hstand, hlastp.symm, ⟨D ++ P, L, hmap', by rw [total_append, hP]⟩, by omega,
    fun b hbb hbl => ?_, ?_, hnonempty⟩
  · -- no boundary fits between where the call stops and `last`: the items up to it would have
    -- fitted
    by_contra hgt
    obtain ⟨B, R, hmapB, hB⟩ := hbb
    have hle : total Item.size (D ++ P) ≤ total Item.size B := by
      rw [total_append, hP, hB]
      omega
    obtain ⟨M, hBM, hLM⟩ := boundary_unique hwf hmap' hmapB hle
    have hBtotal : total Item.size D + total Item.size P + total Item.size M = b := by
      rw [← hB, hBM, total_append, total_append]
    have hroom : total Item.size (P ++ M) ≤ last - first := by
      rw [total_append]
      omega
    have hlong := total_le_fit (R := R) hroom
    rw [List.append_assoc, ← hLM, ← hfit, total_append] at hlong
    omega
  · -- the bytes of the items are those of the slice
    have hlen : total Item.size P = r.lastp - first := by omega
    rw [hbytes, copies, slice_eq hmap hD hP, hlen]

end Pspin.Datatypes
