/-
The datatype interpreter over the whole life of a segment: `Segment_init` on the host, then
one call for each packet.

A call may leave off in the middle of a loop, and the next one goes on there; a call for
bytes that are already behind sets the segment back to the start first. Each call copies
its own bytes and no others, and the stack never grows beyond its elements.
-/
import Pspin.DatatypeInit

set_option autoImplicit false

open Function (update)
open NestedLoop Fit

namespace Pspin.Datatypes

variable {d₀ : Dataloop} {h : Handle} {count n : ℕ} {segp segp' : Segment}

/-- The arguments of a call. -/
structure Call where
  first : ℕ
  last : ℕ
  params : Params

/-- The calls in order: the segment they leave, and what each returns in `*lastp` and
issues. -/
def runCalls (fuel : ℕ) : Segment → List Call → Option (Segment × List (ℕ × List Dma))
  | segp, [] => some (segp, [])
  | segp, c :: cs =>
    match spin_segment_manipulate fuel segp c.first c.last (some c.params) with
    | none => none
    | some r =>
      match runCalls fuel r.segment cs with
      | none => none
      | some (segp, rs) => some (segp, (r.lastp, r.issued) :: rs)

/-- A call for some bytes of the message, from the start of an element. -/
structure Call.Valid (d₀ : Dataloop) (c : Call) : Prop where
  boundary : Boundary d₀ c.first
  inside : c.first < d₀.size
  first_lt : c.first < c.last
  last_lt : c.last < 2 ^ 32

/-- What `c` copies ends at or before `first`: a call that is to go on where `c` left off
starts at the `*lastp` of `c`, which may be before the `last` of `c`. -/
def Call.Before (d₀ : Dataloop) (c : Call) (first : ℕ) : Prop :=
  ∀ b, Boundary d₀ b → b ≤ c.last → b ≤ first

/-- The order that the calls may come in: forwards, unless going back is safe. -/
def InOrder (d₀ : Dataloop) (cs : List Call) : Prop :=
  Resettable d₀ ∨ cs.Pairwise fun c c' => c.Before d₀ c'.first

/-- What a call returns: the last element boundary at or before `last`, and the commands
that copy the bytes up to there, one after the other. -/
structure Call.Copied (d₀ : Dataloop) (c : Call) (lastp : ℕ) (issued : List Dma) : Prop where
  boundary : Boundary d₀ lastp
  le : lastp ≤ c.last
  greatest : ∀ b, Boundary d₀ b → b ≤ c.last → b ≤ lastp
  bytes : bytes issued =
    (slice d₀ c.params.userbuf c.first lastp).zip (List.range' c.params.streambuf (lastp - c.first))

/-! ## Runs of calls -/

/-- A run of calls, by induction on the calls: each leaves the segment between two calls, and
copies its part of the message to the places of the datatype. -/
theorem runCalls_spec (hwf : d₀.WellFormed) (hsize : d₀.size < SEGMENT_IGNORE_LAST) (hn : d₀.turns < n)
    {cs : List Call} (hs : Standing d₀ segp) (hvalid : ∀ c ∈ cs, c.Valid d₀) (horder : InOrder d₀ cs)
    (hbehind : Resettable d₀ ∨ ∀ c ∈ cs, segp.stream_off ≤ c.first) :
    ∃ segp' rs, runCalls n segp cs = some (segp', rs) ∧ Standing d₀ segp' ∧
      (∀ first, segp.stream_off ≤ first → (∀ c ∈ cs, c.Before d₀ first) → segp'.stream_off ≤ first) ∧
      List.Forall₂ (fun c r => c.Copied d₀ r.1 r.2) cs rs := by
  induction cs generalizing segp with
  | nil => exact ⟨segp, [], rfl, hs, fun _ h _ => h, .nil⟩
  | cons c cs ih =>
      have hc := hvalid c List.mem_cons_self
      have hback : segp.stream_off ≤ c.first ∨ segp.cur_sp = none ∨ Resettable d₀ :=
        hbehind.elim (fun h => .inr (.inr h)) fun h => .inl (h c List.mem_cons_self)
      obtain ⟨r, hrun, hstand, hoff, hb, hle, hgreatest, hbytes, -⟩ :=
        manipulate_copies (p := c.params) hs hwf hsize hc.boundary hc.inside hc.first_lt hc.last_lt hback hn
      have horder' : InOrder d₀ cs := horder.imp id fun h => (List.pairwise_cons.mp h).2
      have hbehind' : Resettable d₀ ∨ ∀ c' ∈ cs, r.segment.stream_off ≤ c'.first := by
        refine horder.imp id fun h c' hc' => ?_
        rw [hoff]
        exact (List.pairwise_cons.mp h).1 c' hc' _ hb hle
      obtain ⟨segp', rs, hruns, hstand', hlast, hall⟩ :=
        ih hstand (fun c' hc' => hvalid c' (List.mem_cons_of_mem _ hc')) horder' hbehind'
      refine ⟨segp', (r.lastp, r.issued) :: rs, ?_, hstand', fun first _ hcs => ?_,
        .cons ⟨hb, hle, hgreatest, hbytes⟩ hall⟩
      · simp only [runCalls, hrun, hruns]
      · refine hlast first ?_ fun c' hc' => hcs c' (List.mem_cons_of_mem _ hc')
        rw [hoff]
        exact hcs c List.mem_cons_self _ hb hle

/-- **Every call of a segment's life copies its bytes of the `count` instances.** -/
theorem calls_copy (hc : h.Committed count) (hsize : (h.dlp count).size < SEGMENT_IGNORE_LAST)
    (hn : (h.dlp count).turns < n) {cs : List Call} (hvalid : ∀ c ∈ cs, c.Valid (h.dlp count))
    (horder : InOrder (h.dlp count) cs) (segp : Segment) :
    (h.dlp count).typemap 0 =
      (List.range count).flatMap (fun i => h.typemap (BitVec.ofNat 64 i * h.extent)) ∧
    ∃ segp' rs, runCalls n (Segment_init count h segp) cs = some (segp', rs) ∧
      List.Forall₂ (fun c r => c.Copied (h.dlp count) r.1 r.2) cs rs := by
  have hmap := dlp_typemap hc 0
  simp only [zero_add] at hmap
  obtain ⟨segp', rs, hrun, -, -, hall⟩ := runCalls_spec (dlp_wellFormed hc) hsize hn
    (init_standing (dlp_wellFormed hc) segp) hvalid horder (.inr fun c _ => Nat.zero_le _)
  exact ⟨hmap, segp', rs, hrun, hall⟩

/-! Two instances of a vector, the second part of the message before the first. -/

/-- Two words, eight bytes apart. -/
def demo_handle : Handle where
  loop := some (.final (.v_t 2 1 8) 4 4)
  loopdepth := 1
  size := 8
  extent := 16

theorem demo_sized {n : ℕ} (hn : 0 < n) (hlt : n < 2 ^ 31) (m : ℕ) (hm : 0 < m) (hmlt : m < 2 ^ 31) :
    Sized n fun _ => m := ⟨hn, hlt, fun _ _ => hm, fun _ _ => hmlt⟩

theorem demo_committed : demo_handle.Committed 2 where
  count_pos := by decide
  count_lt := by decide
  basic h := absurd h nofun
  wf d hd := by
    rw [← Option.some.inj hd]
    exact ⟨demo_sized (by decide) (by decide) 1 (by decide) (by decide), by decide⟩
  depth d hd := by
    rw [← Option.some.inj hd]
    rfl
  contig n s x h := absurd (Option.some.inj h) nofun

theorem demo_boundary (n k : ℕ)
    (hk : total Item.size (((demo_handle.dlp 2).typemap 0).take n) = k) :
    Boundary (demo_handle.dlp 2) k :=
  ⟨_, _, (List.take_append_drop n _).symm, hk⟩

theorem demo_resettable : Resettable (demo_handle.dlp 2) := by
  intro j d hj hd _ i _
  rcases j with _ | _ | j
  · exact absurd hj (lt_irrefl 0)
  · rw [← Option.some.inj hd]
    rfl
  · exact absurd hd nofun

/-- The second call goes back to the beginning. -/
def demo_calls : List Call := [⟨12, 16, ⟨0, 64⟩⟩, ⟨0, 14, ⟨0, 0⟩⟩]

theorem demo_valid : ∀ c ∈ demo_calls, c.Valid (demo_handle.dlp 2) := by
  intro c hc
  rcases List.mem_pair.mp hc with rfl | rfl
  · exact ⟨demo_boundary 3 _ (by decide), by decide, by decide, by decide⟩
  · exact ⟨demo_boundary 0 _ (by decide), by decide, by decide, by decide⟩

/-- A segment that was not initialised yet. -/
def demo_segment : Segment := ⟨0, fun _ => ⟨false, 0, 0, 0, 0, 0, 0, .final (.c_t 0) 0 0⟩, none⟩

theorem calls_copy_demo : ∃ segp' rs,
    runCalls 10 (Segment_init 2 demo_handle demo_segment) demo_calls = some (segp', rs) ∧
      List.Forall₂ (fun c r => c.Copied (demo_handle.dlp 2) r.1 r.2) demo_calls rs :=
  (calls_copy demo_committed (by decide) (by decide) demo_valid (.inl demo_resettable) demo_segment).2

/-! ## The stack -/

/-- The state after `k` trips that all go on. -/
def after (last : ℕ) : ℕ → Work → Option Work
  | 0, w => some w
  | k + 1, w =>
    match trip last w with
    | .again w => after last k w
    | .leave _ _ => none

/-- The states of a walk. -/
def Segment.Works (segp : Segment) (last : ℕ) (params : Option Params) (w : Work) : Prop :=
  ∃ sp k, segp.cur_sp = some sp ∧ after last k (segp.work sp params) = some w

/-- The states of the walks of a call: the one that brings the segment to `first`, and the
one that copies. -/
def Call.Works (fuel : ℕ) (segp : Segment) (c : Call) (w : Work) : Prop :=
  let segp := if c.first < segp.stream_off then reset segp else segp
  c.first ≠ segp.stream_off ∧ segp.Works c.first none w ∨
    ∃ segp', advance fuel segp c.first = some segp' ∧ segp'.Works c.last (some c.params) w

/-- The stack is in order after any number of trips. -/
theorem after_onStack {last k : ℕ} {w w' : Work} (h : OnStack d₀ w.stackelm w.cur_sp) (hr : Room w last)
    (ha : after last k w = some w') : OnStack d₀ w'.stackelm w'.cur_sp := by
  induction k generalizing w with
  | zero =>
      rw [after, Option.some.injEq] at ha
      exact ha ▸ h
  | succ k ih =>
      have hspec := trip_spec h hr
      rw [after] at ha
      cases ht : trip last w with
      | leave w₁ cs =>
          rw [ht] at ha
          exact absurd ha nofun
      | again w₁ =>
          rw [ht] at ha hspec
          obtain ⟨P, hon, hleft, hle, hm, -⟩ := hspec
          exact ih hon (hr.next hleft hle hm) ha

/-- A call that goes on from where the last one ended. -/
theorem Standing.works {last : ℕ} {params : Option Params} {w : Work} (h : Standing d₀ segp)
    (hsize : d₀.size < 2 ^ 64) (hle : segp.stream_off ≤ last) (hlast : last < SEGMENT_IGNORE_LAST)
    (hp : params ≠ none → last < 2 ^ 32) (hw : segp.Works last params w) : w.cur_sp < d₀.depth := by
  obtain ⟨sp, k, hsp, ha⟩ := hw
  have hon := after_onStack (h.onStack sp hsp).1 (h.room hsp hsize hle hlast hp) ha
  have hdepth := hon.depth w.cur_sp le_rfl
  have hpos := (w.stackelm w.cur_sp).loop_p.depth_pos
  omega

theorem Call.works {c : Call} {w : Work} (hs : Standing d₀ segp) (hwf : d₀.WellFormed)
    (hsize : d₀.size < SEGMENT_IGNORE_LAST) (hn : d₀.turns < n) (hc : c.Valid d₀)
    (hback : segp.stream_off ≤ c.first ∨ Resettable d₀) (hw : c.Works n segp w) :
    w.cur_sp < d₀.depth := by
  have hsize' : d₀.size < 2 ^ 64 := hsize.trans (by decide)
  obtain ⟨hstand, hle⟩ := back_spec hs hwf (hback.imp id .inr)
  dsimp only [Call.Works] at hw
  generalize (if c.first < segp.stream_off then reset segp else segp) = segp₁ at *
  rcases hw with ⟨-, hw⟩ | ⟨segp₂, hadv, hw⟩
  · exact hstand.works hsize' hle (hc.inside.trans hsize) (fun hp => absurd rfl hp) hw
  · obtain ⟨segp₃, hadv', hstand', hfirst⟩ := advance_spec hstand hwf hn hsize hc.boundary hc.inside hle
    have hsame : segp₃ = segp₂ := Option.some.inj (hadv'.symm.trans hadv)
    subst hsame
    exact hstand'.works hsize' (hfirst.trans_le hc.first_lt.le) (hc.last_lt.trans (by decide))
      (fun _ => hc.last_lt) hw

/-- **The stack never overflows**: in no state of any walk of any call is the stack pointer
beyond the elements of the stack, if the host's assertion on the depth holds. -/
theorem stack_in_bounds (hc : h.Committed count) (hassert : h.depth count < DLOOP_MAX_DATATYPE_DEPTH)
    (hsize : (h.dlp count).size < SEGMENT_IGNORE_LAST)
    (hn : (h.dlp count).turns < n) (cs : List Call) {c : Call} {rs : List (ℕ × List Dma)}
    (hvalid : ∀ c' ∈ cs ++ [c], c'.Valid (h.dlp count)) (horder : InOrder (h.dlp count) (cs ++ [c]))
    (hrun : runCalls n (Segment_init count h segp) cs = some (segp', rs)) {w : Work}
    (hw : c.Works n segp' w) : w.cur_sp < DLOOP_MAX_DATATYPE_DEPTH := by
  have hwf := dlp_wellFormed hc
  have horder' : InOrder (h.dlp count) cs := horder.imp id fun h => (List.pairwise_append.mp h).1
  obtain ⟨segp₁, rs₁, hrun₁, hstand, hlast, -⟩ := runCalls_spec hwf hsize hn
    (init_standing hwf segp) (fun c' hc' => hvalid c' (List.mem_append_left _ hc')) horder'
    (.inr fun c _ => Nat.zero_le _)
  rw [hrun, Option.some.injEq, Prod.mk.injEq] at hrun₁
  obtain ⟨rfl, -⟩ := hrun₁
  have hback : segp'.stream_off ≤ c.first ∨ Resettable (h.dlp count) := by
    refine horder.symm.imp (fun h => ?_) id
    exact hlast c.first (Nat.zero_le _) fun c' hc' =>
      (List.pairwise_append.mp h).2.2 c' hc' c (List.mem_singleton_self c)
  have hdepth := Call.works hstand hwf hsize hn (hvalid c (by simp)) hback hw
  rw [dlp_depth hc] at hdepth
  exact hdepth.trans hassert

theorem stack_in_bounds_demo : ∃ segp' rs w,
    runCalls 10 (Segment_init 2 demo_handle demo_segment) [⟨12, 16, ⟨0, 64⟩⟩] = some (segp', rs) ∧
      Call.Works 10 segp' ⟨0, 14, ⟨0, 0⟩⟩ w ∧ w.cur_sp < DLOOP_MAX_DATATYPE_DEPTH := by
  have hoff : (runCalls 10 (Segment_init 2 demo_handle demo_segment) [⟨12, 16, ⟨0, 64⟩⟩]).map
      (fun r => r.1.stream_off) = some 16 := by decide
  obtain ⟨⟨segp', rs⟩, hrun, hoff⟩ := Option.map_eq_some_iff.mp hoff
  have hbehind : 0 < segp'.stream_off := (by decide : 0 < 16).trans_eq hoff.symm
  have hw : Call.Works 10 segp' ⟨0, 14, ⟨0, 0⟩⟩ ((reset segp').work 0 (some ⟨0, 0⟩)) := by
    rw [Call.Works]
    dsimp only
    rw [if_pos hbehind]
    exact .inr ⟨reset segp', rfl, 0, 0, rfl, rfl⟩
  exact ⟨segp', rs, _, hrun, hw, stack_in_bounds demo_committed (by decide) (by decide) (by decide)
    [⟨12, 16, ⟨0, 64⟩⟩] demo_valid (.inl demo_resettable) hrun hw⟩

end Pspin.Datatypes
