/-
`Segment_init` of `mpitypes/src/dataloop/segment.c`: the segment that the host prepares for
`count` instances of a datatype, before any packet arrives.

One instance is walked with the loop of the datatype itself. More than one need a loop
round it, and a contig of elementary elements is merged with that loop.
-/
import Pspin.DatatypeUnpack

set_option autoImplicit false

open Function (update)
open NestedLoop Fit

namespace Pspin.Datatypes

/-- What `Segment_init` asks of a `DLOOP_Handle`. `loop` is `none` for a basic type. -/
structure Handle where
  loop : Option Dataloop
  loopdepth : ℕ
  size : ℕ
  extent : Offset

/-- `builtin_loop` for a loop that is one contig of `n` elements. -/
def Handle.merged (h : Handle) (count n el_size : ℕ) (el_extent : Offset) : Dataloop :=
  if BitVec.ofNat 64 h.size = h.extent then .final (.c_t (wrap64 (count * n))) el_size el_extent
  else .final (.v_t count n h.extent) el_size el_extent

/-- `dlp`: the loop that the segment walks. -/
def Handle.dlp (h : Handle) (count : ℕ) : Dataloop :=
  match h.loop with
  | none => .final (.c_t count) h.size h.extent
  | some oldloop =>
    if count = 0 then .final (.c_t 0) 0 0
    else if count = 1 then oldloop
    else match h.loopdepth, oldloop with
      | 1, .final (.c_t n) el_size el_extent => h.merged count n el_size el_extent
      | 1, .branch (.c_t n) el_size el_extent _ => h.merged count n el_size el_extent
      | _, _ => .branch (.c_t count) h.size h.extent oldloop

/-- `depth`, which `Segment_init` asserts to be below `DLOOP_MAX_DATATYPE_DEPTH`. -/
def Handle.depth (h : Handle) (count : ℕ) : ℕ :=
  match h.loop with
  | none => 1
  | some oldloop =>
    if count = 0 then 1
    else if count = 1 then h.loopdepth
    else match h.loopdepth, oldloop with
      | 1, .final (.c_t _) _ _ => 1
      | 1, .branch (.c_t _) _ _ _ => 1
      | depth, _ => depth + 1

/-- The `while` that loads the elements from `i` on, through the first member of a struct. -/
def loadInner : Dataloop → ℕ → Bool → (ℕ → Stackelm) → ℕ → Stackelm
  | .final _ _ _, _, _, stk => stk
  | .branch _ _ _ dataloop, i, branch_detected, stk =>
    let elmp := DLOOP_Stackelm_load (stk i) dataloop branch_detected
    loadInner dataloop (i + 1) elmp.may_require_reloading (update stk i elmp)
  | .struct _ _ _ _ _ dataloop_array, i, branch_detected, stk =>
    let elmp := DLOOP_Stackelm_load (stk i) (dataloop_array 0) branch_detected
    loadInner (dataloop_array 0) (i + 1) elmp.may_require_reloading (update stk i elmp)

/-- `Segment_init`: the outer loop over the instances, and below it every loop on the way down that
is not under a struct. -/
def Segment_init (count : ℕ) (h : Handle) (segp : Segment) : Segment :=
  let dlp := h.dlp count
  let elmp := DLOOP_Stackelm_load (segp.stackelm 0) dlp false
  let elmp := { elmp with orig_offset := 0, curblock := elmp.orig_block }
  let elmp := { elmp with curoffset := DLOOP_Stackelm_offset elmp }
  { stream_off := 0, cur_sp := some 0
    stackelm := loadInner dlp 1 elmp.may_require_reloading (update segp.stackelm 0 elmp) }

/-! ## The stack that it leaves -/

variable {d d₀ : Dataloop} {h : Handle} {count : ℕ} {stk : ℕ → Stackelm}

theorem loadInner_below {i j : ℕ} {b : Bool} (hj : j < i) : loadInner d i b stk j = stk j := by
  induction d generalizing i b stk with
  | final => rfl
  | branch p s x dl ih =>
      rw [loadInner, ih (by omega), Function.update_of_ne hj.ne]
  | struct n b' o x s dls ih =>
      rw [loadInner, ih 0 (by omega), Function.update_of_ne hj.ne]

/-- What loading the outermost element stores. -/
theorem load_first (e : Stackelm) (d : Dataloop) :
    Loaded (DLOOP_Stackelm_load e d false) d ∧
      (DLOOP_Stackelm_load e d false).orig_block = d.blocksize 0 := by
  refine ⟨⟨rfl, rfl, Bool.false_or _⟩, ?_⟩
  change d.blocksize (d.count - d.count) = d.blocksize 0
  rw [Nat.sub_self]

/-- The loops on the way down to the first struct are loaded in order. -/
theorem loadInner_spine {i j : ℕ} {d' : Dataloop} (hd : d.spine (j + 1) = some d') :
    Loaded (loadInner d i d.isStruct stk (i + j)) d' ∧
      (loadInner d i d.isStruct stk (i + j)).orig_block = d'.blocksize 0 := by
  -- induction on the loop; of a final loop or a struct nothing is loaded beforehand
  induction d generalizing i j stk with
  | final => exact absurd hd (by simp [Dataloop.spine])
  | struct => exact absurd hd (by simp [Dataloop.spine])
  | branch p s x dl ih =>
      have hload := load_first (stk i) dl
      have hreload : (DLOOP_Stackelm_load (stk i) dl false).may_require_reloading = dl.isStruct :=
        hload.1.reload
      rw [Dataloop.spine] at hd
      have hload' : loadInner (.branch p s x dl) i (Dataloop.branch p s x dl).isStruct stk =
          loadInner dl (i + 1) dl.isStruct (update stk i (DLOOP_Stackelm_load (stk i) dl false)) := by
        rw [← hreload]
        rfl
      rw [hload']
      -- the level itself, which the loads further in leave alone, or one of those
      cases j with
      | zero =>
          rw [Dataloop.spine_zero, Option.some.injEq] at hd
          rw [Nat.add_zero i, loadInner_below (Nat.lt_add_one i), Function.update_self, ← hd]
          exact hload
      | succ j =>
          have hij : i + (j + 1) = i + 1 + j := by omega
          rw [hij]
          exact ih hd

/-- **A fresh segment stands at the start of its message.** -/
theorem init_standing (hwf : (h.dlp count).WellFormed) (segp : Segment) :
    Standing (h.dlp count) (Segment_init count h segp) := by
  obtain ⟨hload, hblock⟩ := load_first (segp.stackelm 0) (h.dlp count)
  have hcount : (DLOOP_Stackelm_load (segp.stackelm 0) (h.dlp count) false).curcount =
      (h.dlp count).count := rfl
  rw [Segment_init]
  generalize h.dlp count = d₀ at *
  generalize DLOOP_Stackelm_load (segp.stackelm 0) d₀ false = e at *
  -- the offset of the first block
  have hoffset : DLOOP_Stackelm_offset { e with orig_offset := 0, curblock := e.orig_block } =
      d₀.offset 0 := by
    rw [DLOOP_Stackelm_offset, hload.loop_p, hload.count, hcount, Nat.sub_self]
  -- the levels further in leave the outermost one alone
  have hzero : ∀ (b : Bool) (e' : Stackelm),
      loadInner d₀ 1 b (update segp.stackelm 0 e') 0 = e' := by
    intro b e'
    rw [loadInner_below Nat.zero_lt_one, Function.update_self]
  -- each of them has the loop it is for
  have hspine : ∀ j d e', 0 < j → d₀.spine j = some d →
      Loaded (loadInner d₀ 1 d₀.isStruct (update segp.stackelm 0 e') j) d ∧
        (loadInner d₀ 1 d₀.isStruct (update segp.stackelm 0 e') j).orig_block = d.blocksize 0 := by
    intro j d e' hj hd
    obtain ⟨j, rfl⟩ := Nat.exists_eq_add_of_lt hj
    rw [Nat.zero_add] at hd ⊢
    rw [Nat.add_comm]
    exact loadInner_spine hd
  dsimp only
  rw [hoffset, hload.reload]
  -- the outermost level at its start, and every level loaded
  refine standing_first ?_ ?_ (fun j d hd => ?_) (fun j d hj hd _ => (hspine j d _ hj hd).2)
  · rw [hzero]
    refine ⟨hload.loop_p ▸ hwf, ?_, ?_, ?_, ?_, fun _ => ?_⟩
    · rw [hload.count, hload.loop_p]
    · rw [hcount, hload.count]
    · rw [hblock, hload.loop_p]
    · rw [hload.loop_p]
      exact (BitVec.zero_add _).symm
    · rw [hblock, hload.loop_p]
  · rw [hzero]
  · by_cases hj : j = 0
    · subst hj
      rw [Dataloop.spine_zero, Option.some.injEq] at hd
      rw [hzero, ← hd]
      exact ⟨hload.loop_p, hload.count, rfl⟩
    · exact (hspine j d _ (Nat.pos_of_ne_zero hj) hd).1

/-! ## What it describes -/

/-- One instance of the datatype. -/
def Handle.typemap (h : Handle) (base : Offset) : List Item :=
  match h.loop with
  | none => [⟨base, h.size⟩]
  | some d => d.typemap base

/-- The fields of a committed datatype agree with its loop. The product of `count` and the
elements of a contig has to fit an `int` like any count. -/
structure Handle.Committed (h : Handle) (count : ℕ) : Prop where
  count_pos : 0 < count
  count_lt : count < 2 ^ 31
  basic : h.loop = none → 0 < h.size ∧ h.extent = BitVec.ofNat 64 h.size
  wf : ∀ d, h.loop = some d → d.WellFormed
  depth : ∀ d, h.loop = some d → h.loopdepth = d.depth
  contig : ∀ n s x, h.loop = some (.final (.c_t n) s x) → h.size = n * s ∧ count * n < 2 ^ 31

theorem blocks_one {α : Type*} (size : ℕ → ℕ) (g : ℕ → ℕ → List α) :
    blocks size g 0 1 = elements (g 0) 0 (size 0) := by
  simp [blocks]

/-- `count` blocks of `n` elements are one block of `count * n` of them. -/
theorem elements_mul {α : Type*} (g : ℕ → List α) (n m : ℕ) :
    elements g 0 (m * n) = (List.range m).flatMap fun i => elements (fun b => g (i * n + b)) 0 n := by
  induction m with
  | zero => simp [elements]
  | succ m ih =>
      have hlast : elements g (m * n) n = elements (fun b => g (m * n + b)) 0 n := by
        rw [elements, elements, List.range'_eq_map_range, List.range'_eq_map_range, List.flatMap_map,
          List.flatMap_map]
        simp
      rw [Nat.succ_mul, elements_add, ih, List.range_succ, List.flatMap_append, Nat.zero_add, hlast,
        List.flatMap_singleton]

/-- What a contiguous loop of bytes describes. -/
theorem contig_typemap (n s : ℕ) (x base : Offset) :
    (Dataloop.final (.c_t n) s x).typemap base =
      elements (fun b => [⟨base + BitVec.ofNat 64 (b * s), s⟩]) 0 n := by
  refine (blocks_one _ _).trans ?_
  simp only [LoopParams.blocksize, LoopParams.place, add_zero]

theorem blocks_range {α : Type*} (size : ℕ → ℕ) (g : ℕ → ℕ → List α) (n : ℕ) :
    blocks size g 0 n = (List.range n).flatMap fun c => elements (g c) 0 (size c) := by
  rw [blocks, List.range_eq_range']

/-- A datatype without holes, several times: the instances make up one contiguous loop, which is
how `Segment_init` stores them. -/
theorem merged_typemap {n s : ℕ} (x base : Offset) (hs : h.size = n * s) (hn : count * n < 2 ^ 31) :
    (h.merged count n s x).typemap base = (List.range count).flatMap fun i =>
      (Dataloop.final (.c_t n) s x).typemap (base + BitVec.ofNat 64 i * h.extent) := by
  rw [Handle.merged]
  split_ifs with hext
  · have hwrap : wrap64 (count * n) = count * n := Nat.mod_eq_of_lt (hn.trans (by decide))
    rw [hwrap, contig_typemap, elements_mul]
    refine List.flatMap_congr fun i _ => ?_
    rw [contig_typemap, ← hext, hs]
    -- instance `i` begins `i * (n * s)` bytes after the first
    refine congrArg (fun g => elements g 0 n) (funext fun b => ?_)
    have hplace : BitVec.ofNat 64 ((i * n + b) * s) =
        BitVec.ofNat 64 i * BitVec.ofNat 64 (n * s) + BitVec.ofNat 64 (b * s) := by
      rw [← BitVec.ofNat_mul, ← BitVec.ofNat_add]
      congr 1
      ring
    rw [hplace, add_assoc]
  · refine (blocks_range _ _ _).trans (List.flatMap_congr fun i _ => ?_)
    rw [contig_typemap]
    rfl

/-- Any other one: a loop over the instances. -/
theorem general_typemap (s : ℕ) (x base : Offset) (d : Dataloop) :
    (Dataloop.branch (.c_t count) s x d).typemap base =
      (List.range count).flatMap fun i => d.typemap (base + BitVec.ofNat 64 i * x) := by
  refine (blocks_one _ _).trans ?_
  rw [elements, List.range_eq_range']
  simp only [LoopParams.blocksize, LoopParams.place, add_zero]

/-- A loop needs an element of the stack. -/
theorem Dataloop.depth_pos (d : Dataloop) : 0 < d.depth := by
  cases d with
  | final => exact Nat.one_pos
  | branch => exact Nat.succ_pos _
  | struct => exact Nat.succ_pos _

/-- Only a contig of elementary elements is merged with the loop round it. -/
theorem dlp_many (hl : h.loop = some d) (hdepth : h.loopdepth = d.depth) (hc : 1 < count) :
    h.dlp count = .branch (.c_t count) h.size h.extent d ∧ h.depth count = d.depth + 1 ∨
      ∃ n s x, d = .final (.c_t n) s x ∧ h.dlp count = h.merged count n s x ∧ h.depth count = 1 := by
  rw [Handle.dlp, Handle.depth, hl]
  dsimp only
  rw [if_neg (by omega), if_neg (by omega), if_neg (by omega), if_neg (by omega), hdepth]
  cases d with
  | struct n b o x s dls =>
      left
      generalize (Dataloop.struct n b o x s dls).depth = k
      rcases k with _ | _ | k <;> exact ⟨rfl, rfl⟩
  | branch p s x dl =>
      left
      obtain ⟨k, hk⟩ := Nat.exists_eq_add_of_lt dl.depth_pos
      rw [Dataloop.depth, hk]
      cases p <;> exact ⟨rfl, rfl⟩
  | final p s x =>
      cases p with
      | c_t n => exact .inr ⟨n, s, x, rfl, rfl, rfl⟩
      | v_t => exact .inl ⟨rfl, rfl⟩
      | bi_t => exact .inl ⟨rfl, rfl⟩
      | i_t => exact .inl ⟨rfl, rfl⟩

/-- **The loop of a segment describes `count` instances, each `extent` after the last.** -/
theorem dlp_typemap (hc : h.Committed count) (base : Offset) :
    (h.dlp count).typemap base =
      (List.range count).flatMap fun i => h.typemap (base + BitVec.ofNat 64 i * h.extent) := by
  cases hl : h.loop with
  | none =>
      simp only [Handle.dlp, Handle.typemap, hl]
      rw [contig_typemap, elements, List.range_eq_range']
      refine List.flatMap_congr fun i _ => ?_
      rw [(hc.basic hl).2, BitVec.ofNat_mul]
  | some d =>
      simp only [Handle.typemap, hl]
      rcases Nat.lt_or_ge 1 count with hone | hone
      · rcases dlp_many hl (hc.depth d hl) hone with ⟨hd, -⟩ | ⟨n, s, x, rfl, hd, -⟩
        · rw [hd, general_typemap]
        · obtain ⟨hs, hn⟩ := hc.contig n s x hl
          rw [hd, merged_typemap x base hs hn]
      · have hcount : count = 1 := le_antisymm hone hc.count_pos
        subst hcount
        simp [Handle.dlp, hl]

/-- The loop over the instances is as deep as was committed. -/
theorem dlp_depth (hc : h.Committed count) : (h.dlp count).depth = h.depth count := by
  cases hl : h.loop with
  | none =>
      rw [Handle.dlp, Handle.depth, hl]
      rfl
  | some d =>
      rcases Nat.lt_or_ge 1 count with hone | hone
      · rcases dlp_many hl (hc.depth d hl) hone with ⟨hd, hdepth⟩ | ⟨n, s, x, rfl, hd, hdepth⟩
        · rw [hd, hdepth]
          rfl
        · rw [hd, hdepth, Handle.merged]
          split_ifs <;> rfl
      · have hcount : count = 1 := le_antisymm hone hc.count_pos
        subst hcount
        rw [Handle.dlp, Handle.depth, hl]
        exact (hc.depth d hl).symm

/-- Its counts are in range, so that the segment can walk it. -/
theorem dlp_wellFormed (hc : h.Committed count) : (h.dlp count).WellFormed := by
  have hcontig : ∀ {n}, 0 < n → n < 2 ^ 31 → Sized 1 fun _ => n := fun hn hn' =>
    ⟨Nat.one_pos, by decide, fun _ _ => hn, fun _ _ => hn'⟩
  cases hl : h.loop with
  | none =>
      rw [Handle.dlp, hl]
      exact ⟨hcontig hc.count_pos hc.count_lt, (hc.basic hl).1⟩
  | some d =>
      have hwf := hc.wf d hl
      -- more than one instance: a contiguous loop around the datatype, or one in which both are
      -- merged
      rcases Nat.lt_or_ge 1 count with hone | hone
      · rcases dlp_many hl (hc.depth d hl) hone with ⟨hd, -⟩ | ⟨n, s, x, rfl, hd, -⟩
        · rw [hd]
          exact ⟨hcontig hc.count_pos hc.count_lt, hwf⟩
        · obtain ⟨-, hn⟩ := hc.contig n s x hl
          obtain ⟨hsized, hs⟩ := hwf
          have hnpos : 0 < n := hsized.block_pos 0 Nat.one_pos
          rw [hd, Handle.merged]
          -- merged into one block, or a loop of blocks
          split_ifs
          · have hwrap : wrap64 (count * n) = count * n := Nat.mod_eq_of_lt (hn.trans (by decide))
            rw [hwrap]
            exact ⟨hcontig (Nat.mul_pos hc.count_pos hnpos) hn, hs⟩
          · exact ⟨⟨hc.count_pos, hc.count_lt, fun _ _ => hnpos, fun _ _ => hsized.block_lt 0 Nat.one_pos⟩,
              hs⟩
      · -- one instance is the datatype itself
        have hcount : count = 1 := le_antisymm hone hc.count_pos
        subst hcount
        rw [Handle.dlp, hl]
        exact hwf

end Pspin.Datatypes
