/-
Runs of the datatype interpreter.

One trip hands over the front of what is left and issues the commands for it (`trip_spec`);
a whole walk hands over everything that fits before `last` (`trips_spec`).
-/
import Pspin.DatatypeTrips

set_option autoImplicit false

open Function (update)
open NestedLoop Fit

namespace Pspin.Datatypes

variable {d d₀ : Dataloop} {e e' : Stackelm} {w w' w'' : Work} {P Q : List Item} {last : ℕ}

/-! ## The commands -/

/-- The bytes a command copies: where to, and where from. -/
def Dma.bytes (m : Dma) : List (Offset × ℕ) :=
  ((List.range' 0 m.size).map fun k => m.dest + BitVec.ofNat 64 k).zip (List.range' m.source m.size)

/-- Everything that a list of transfers copies, byte by byte. -/
def bytes (issued : List Dma) : List (Offset × ℕ) := issued.flatMap Dma.bytes

/-- The copies that the elements `P` ask for: their bytes come one after the other in
`streambuf`, and each goes to its place in `userbuf`. -/
def copies (p : Params) (P : List Item) : List (Offset × ℕ) :=
  ((addresses P).map fun a => p.userbuf + a).zip (List.range' p.streambuf (total Item.size P))

/-- Items that are copied in two parts: the second part continues in the stream. -/
theorem copies_append (p : Params) (P Q : List Item) :
    copies p (P ++ Q) =
      copies p P ++ copies { p with streambuf := p.streambuf + total Item.size P } Q := by
  have hlen : ((addresses P).map fun a => p.userbuf + a).length =
      (List.range' p.streambuf (total Item.size P)).length := by simp
  rw [copies, addresses_append, List.map_append, total_append, ← List.range'_append_1,
    List.zip_append hlen]
  rfl

/-- `w'` is `w` after the elements `P`. No command is empty: the DMA engine would never report
it complete. -/
structure Moved (w w' : Work) (P : List Item) : Prop where
  stream_off : w'.stream_off = w.stream_off + total Item.size P
  none : w.params = none → w'.params = none ∧ w'.issued = w.issued
  some : ∀ p, w.params = some p →
    w'.params = some { p with streambuf := p.streambuf + total Item.size P } ∧
      bytes w'.issued = bytes w.issued ++ copies p P
  nonempty : (∀ m ∈ w.issued, 0 < m.size) → ∀ m ∈ w'.issued, 0 < m.size

theorem Moved.refl (w : Work) : Moved w w [] :=
  ⟨rfl, fun h => ⟨h, rfl⟩, fun _ h => ⟨h, (List.append_nil _).symm⟩, id⟩

theorem Moved.trans (h : Moved w w' P) (h' : Moved w' w'' Q) : Moved w w'' (P ++ Q) := by
  refine ⟨?_, fun hn => ?_, fun p hp => ?_, fun hpos => h'.nonempty (h.nonempty hpos)⟩
  · rw [h'.stream_off, h.stream_off, total_append, Nat.add_assoc]
  · obtain ⟨hp', hi⟩ := h.none hn
    obtain ⟨hp'', hi'⟩ := h'.none hp'
    exact ⟨hp'', hi'.trans hi⟩
  · obtain ⟨hp', hi⟩ := h.some p hp
    obtain ⟨hp'', hi'⟩ := h'.some _ hp'
    refine ⟨?_, ?_⟩
    · rw [hp'', total_append, Nat.add_assoc]
    · rw [hi', hi, copies_append, List.append_assoc]

/-- Only the stack changes. -/
theorem Moved.same (h : Moved w w' P) (hs : w''.stream_off = w'.stream_off)
    (hp : w''.params = w'.params) (hi : w''.issued = w'.issued) : Moved w w'' P := by
  refine ⟨hs ▸ h.stream_off, fun hn => ?_, fun p hp' => ?_, hi ▸ h.nonempty⟩
  · rw [hp, hi]
    exact h.none hn
  · rw [hp, hi]
    exact h.some p hp'

/-- A transfer hands over the items whose bytes it moves, and issues one command for them. -/
theorem transfer_moved {o : Offset} {n : ℕ} (ht : total Item.size P = n)
    (ha : addresses P = (List.range' 0 n).map fun k => o + BitVec.ofNat 64 k)
    (hoff : w.stream_off + n < 2 ^ 64) (hp : w.params ≠ none → n < 2 ^ 32) (hpos : 0 < n) :
    Moved w (transfer w o n) P := by
  have hwrap : wrap64 (w.stream_off + n) = w.stream_off + n := Nat.mod_eq_of_lt hoff
  -- without parameters nothing is issued, the position alone moves
  cases hw : w.params with
  | none =>
      refine ⟨?_, fun _ => ?_, fun p h => absurd h (by simp [hw]), fun h => ?_⟩
      · simp only [transfer, hw, hwrap, ht]
      · simp only [transfer, hw, and_self]
      · simp only [transfer, hw]
        exact h
  -- with them there is one more command, with the bytes of these items
  | some q =>
      have hn : n % 2 ^ 32 = n := Nat.mod_eq_of_lt (hp (by simp [hw]))
      refine ⟨?_, fun h => absurd h (by simp [hw]), fun p h => ?_, fun h m hm => ?_⟩
      · simp only [transfer, hw, hwrap, ht]
      · have hpq : q = p := by simpa [hw] using h
        subst hpq
        refine ⟨?_, ?_⟩
        · simp only [transfer, hw, hn, ht]
        · simp only [transfer, hw, hn, bytes, List.flatMap_append, List.flatMap_singleton, Dma.bytes,
            copies, ha, ht, List.map_map]
          congr 3
          exact funext fun k => add_assoc _ _ _
      · simp only [transfer, hw, hn, List.mem_append, List.mem_singleton] at hm
        rcases hm with hm | rfl
        · exact h m hm
        · exact hpos

theorem transfer_stack (w : Work) (o : Offset) (n : ℕ) :
    (transfer w o n).stackelm = w.stackelm ∧ (transfer w o n).cur_sp = w.cur_sp := by
  rw [transfer]
  cases w.params <;> exact ⟨rfl, rfl⟩

theorem transfer_elm (w : Work) (o : Offset) (n : ℕ) : (transfer w o n).elm = w.elm := by
  rw [Work.elm, Work.elm, (transfer_stack w o n).1, (transfer_stack w o n).2]

/-! ## One trip -/

/-- Where the walk may start a trip, with `last` to stop at. Without commands `last` is a
position in the message; with them it is the end of a packet, which has 32 bits. -/
structure Room (w : Work) (last : ℕ) : Prop where
  le : w.stream_off ≤ last
  lt : last < SEGMENT_IGNORE_LAST
  size : w.stream_off + total Item.size w.left < 2 ^ 64
  params : w.params ≠ none → last < 2 ^ 32

/-- What a trip from `w` may end in: it hands over `P` and goes on, it is done with the
outermost loop, or it stops in front of an element that ends behind `last`. -/
def TripSpec (d₀ : Dataloop) (last : ℕ) (w : Work) : Trip → Prop
  | .again w' => ∃ P, OnStack d₀ w'.stackelm w'.cur_sp ∧ w.left = P ++ w'.left ∧
      w.stream_off + total Item.size P ≤ last ∧ Moved w w' P ∧
      turnsFrom w'.stackelm w'.cur_sp < turnsFrom w.stackelm w.cur_sp
  | .leave w' none => Idle d₀ w'.stackelm ∧
      w.stream_off + total Item.size w.left ≤ last ∧ Moved w w' w.left
  | .leave w' (some sp) => ∃ P, sp = w'.cur_sp ∧ OnStack d₀ w'.stackelm w'.cur_sp ∧
      w.left = P ++ w'.left ∧ w.stream_off + total Item.size P ≤ last ∧ Moved w w' P ∧
      turnsFrom w'.stackelm w'.cur_sp ≤ turnsFrom w.stackelm w.cur_sp ∧
      ∀ i ∈ w'.left.head?, last < w'.stream_off + i.size

/-- A trip that goes on leaves room for the next one. -/
theorem Room.next (hr : Room w last) (hleft : w.left = P ++ w'.left)
    (hle : w.stream_off + total Item.size P ≤ last) (hm : Moved w w' P) : Room w' last where
  le := hm.stream_off ▸ hle
  lt := hr.lt
  size := by
    have := hr.size
    rw [hleft, total_append] at this
    rw [hm.stream_off]
    omega
  params hn := hr.params fun h0 => hn (hm.none h0).1

/-- What is left begins with the innermost element. -/
theorem Work.left_eq (w : Work) : w.left = w.elm.left ++ below w.stackelm w.cur_sp :=
  leftFrom_eq w.stackelm w.cur_sp

/-- The elements that a transfer takes off a leaf. -/
theorem leaf_elements (h : Active e) (hf : e.loop_p.isFinal = true) {m : ℕ} (hm : m ≤ e.curblock) :
    ∃ P, e.left = P ++ rest e.loop_p.count e.loop_p.blocksize (e.loop_p.element e.orig_offset)
        e.index (e.done + m) ∧
      total Item.size P = m * e.loop_p.el_size ∧
      addresses P = (List.range' 0 (m * e.loop_p.el_size)).map fun k =>
        e.curoffset + BitVec.ofNat 64 k := by
  have hle := h.curblock_le
  have hoff := (h.final hf).2
  have hfit : e.done + m ≤ e.loop_p.blocksize e.index := by
    rw [Stackelm.done]
    omega
  refine ⟨_, rest_elements hfit, ?_⟩
  rw [hoff]
  cases hd : e.loop_p with
  | branch => rw [hd] at hf; exact absurd hf (by simp [Dataloop.isFinal])
  | struct => rw [hd] at hf; exact absurd hf (by simp [Dataloop.isFinal])
  | final p el ext => exact final_elements (e.orig_offset + p.place e.index) el e.done m

/-- The next element of a leaf has the size of its elementary type. -/
theorem leaf_head (h : Active e) (hf : e.loop_p.isFinal = true) :
    ∃ i R, e.left = i :: R ∧ i.size = e.loop_p.el_size := by
  have hle := h.curblock_le
  have hpos := (h.final hf).1
  have hlt : e.done < e.loop_p.blocksize e.index := by
    rw [Stackelm.done]
    omega
  rw [Stackelm.left, rest_element hlt]
  cases hd : e.loop_p with
  | branch => rw [hd] at hf; exact absurd hf (by simp [Dataloop.isFinal])
  | struct => rw [hd] at hf; exact absurd hf (by simp [Dataloop.isFinal])
  | final p el ext => exact ⟨_, _, rfl, rfl⟩

/-- Elements of a loop that is walked have bytes. -/
theorem el_size_pos (h : Active e) (hf : e.loop_p.isFinal = true) : 0 < e.loop_p.el_size := by
  have hwf := h.wf
  cases hd : e.loop_p with
  | branch => rw [hd] at hf; exact absurd hf (by simp [Dataloop.isFinal])
  | struct => rw [hd] at hf; exact absurd hf (by simp [Dataloop.isFinal])
  | final p el ext =>
      rw [hd] at hwf
      exact hwf.2

/-- `e` after `m` elements of its block, with more to come. -/
def Stackelm.after (e : Stackelm) (m : ℕ) : Stackelm :=
  { e with
    curoffset := e.curoffset + BitVec.ofNat 64 (m * e.loop_p.el_size)
    curblock := e.curblock - m }

/-- Handing over the first elements of a block leaves the rest. -/
theorem after_spec (h : Active e) (hf : e.loop_p.isFinal = true) {m : ℕ} (hm : m < e.curblock) :
    Active (e.after m) ∧ (e.after m).left =
      rest e.loop_p.count e.loop_p.blocksize (e.loop_p.element e.orig_offset) e.index (e.done + m) := by
  have hle := h.curblock_le
  have hoff := (h.final hf).2
  have hdone : (e.after m).done = e.done + m := by
    change e.loop_p.blocksize e.index - (e.curblock - m) = e.loop_p.blocksize e.index - e.curblock + m
    omega
  refine ⟨⟨h.wf, h.count, h.curcount_pos, h.curcount_le, (Nat.sub_le _ _).trans hle, h.block,
    fun n s x c hd => ?_, fun _ => ⟨Nat.sub_pos_of_lt hm, ?_⟩⟩, ?_⟩
  · have hd' : e.loop_p = .branch (.c_t n) s x c := hd
    exact absurd hf (by simp [hd', Dataloop.isFinal])
  · change e.curoffset + BitVec.ofNat 64 (m * e.loop_p.el_size) = e.orig_offset + e.loop_p.place e.index +
      BitVec.ofNat 64 ((e.after m).done * e.loop_p.el_size)
    rw [hdone, hoff, Nat.add_mul, BitVec.ofNat_add]
    ring
  · change rest e.loop_p.count e.loop_p.blocksize (e.loop_p.element e.orig_offset) e.index
      (e.after m).done = _
    rw [hdone]

/-- A work that differs from `w` in the element at the top of the stack. -/
theorem set_stackelm {w₁ : Work} (hstk : w₁.stackelm = w.stackelm) (hsp : w₁.cur_sp = w.cur_sp)
    (e' : Stackelm) : (w₁.set e').stackelm = update w.stackelm w.cur_sp e' := by
  rw [← hstk, ← hsp]
  rfl

/-- The element goes on at its next block: the top of the stack is the one that changes, and
it has fewer blocks left. -/
theorem next_block_spec {w₁ : Work} {e' : Stackelm} (h : OnStack d₀ w.stackelm w.cur_sp)
    (hstk : w₁.stackelm = w.stackelm) (hsp : w₁.cur_sp = w.cur_sp)
    (hleft : w.elm.left = P ++ rest w.elm.loop_p.count w.elm.loop_p.blocksize
      (w.elm.loop_p.element w.elm.orig_offset) w.elm.index (w.elm.loop_p.blocksize w.elm.index))
    (hle : w.stream_off + total Item.size P ≤ last) (hm : Moved w w₁ P)
    (hcur : w.elm.loop_p.isFinal = false → w.elm.curblock = 0)
    (hlt : w.elm.index + 1 < w.elm.loop_p.count) (hn : NextBlock w.elm e') :
    TripSpec d₀ last w (.again (w₁.set e')) := by
  have ha : Active w.elm := h.active _ le_rfl
  have hset := set_stackelm hstk hsp e'
  have hstack : (w₁.set e').cur_sp = w.cur_sp := hsp
  refine ⟨P, ?_, ?_, hle, hm.same rfl rfl rfl, ?_⟩
  · rw [hset, hstack]
    exact h.set (hn.active ha hlt) hn.toSameLoop
  · rw [Work.left_eq, hleft, rest_next_block hlt, ← hn.left ha, Work.left, hset, hstack,
      leftFrom_update, List.append_assoc]
  · rw [hset, hstack, turnsFrom_update, turnsFrom_eq w.stackelm w.cur_sp]
    exact Nat.add_lt_add_right (hn.turns ha hlt hcur) _

/-- The last block of the outermost loop: nothing is left at all, and the walk ends. -/
theorem pop_outer_spec {w₁ : Work} {e' : Stackelm} (h : OnStack d₀ w.stackelm w.cur_sp)
    (hstk : w₁.stackelm = w.stackelm) (hsp : w₁.cur_sp = w.cur_sp) (hleft : w.elm.left = P)
    (hle : w.stream_off + total Item.size P ≤ last) (hm : Moved w w₁ P) (hu : Unwound w.elm e')
    (hc : w.cur_sp = 0) : TripSpec d₀ last w (pop (w₁.set e')) := by
  have hset := set_stackelm hstk hsp e'
  rw [hc] at hsp hset
  rw [Work.elm, hc] at hu
  have hwl : w.left = P := by
    rw [Work.left_eq, hleft, hc]
    exact List.append_nil P
  have hp : pop (w₁.set e') = .leave (w₁.set e') none := by
    have : (w₁.set e').cur_sp = 0 := hsp
    rw [pop, this]
  rw [hp, TripSpec, hwl]
  refine ⟨?_, hle, hm.same rfl rfl rfl⟩
  rw [hset]
  exact OnStack.pop_outer (hc ▸ h) hu

/-- The last block of an inner loop: the level below goes on after it, with fewer trips left
since there is one level less. -/
theorem pop_inner_spec {w₁ : Work} {e' : Stackelm} {n : ℕ} (h : OnStack d₀ w.stackelm w.cur_sp)
    (hstk : w₁.stackelm = w.stackelm) (hsp : w₁.cur_sp = w.cur_sp) (hleft : w.elm.left = P)
    (hle : w.stream_off + total Item.size P ≤ last) (hm : Moved w w₁ P) (hu : Unwound w.elm e')
    (hc : w.cur_sp = n + 1) : TripSpec d₀ last w (pop (w₁.set e')) := by
  have hpos := (h.active _ le_rfl).turns_pos
  have hset := set_stackelm hstk hsp e'
  have hpop : Moved w (w₁.set e') P := hm.same rfl rfl rfl
  rw [hc] at hsp hset
  rw [Work.elm, hc] at hu
  have hp : pop (w₁.set e') = .again { w₁.set e' with cur_sp := n } := by
    have : (w₁.set e').cur_sp = n + 1 := hsp
    rw [pop, this]
  have hlow : ∀ j ≤ n, update w.stackelm (n + 1) e' j = w.stackelm j := fun j hj =>
    Function.update_of_ne (by omega) ..
  rw [hp, TripSpec]
  refine ⟨P, ?_, ?_, hle, hpop.same rfl rfl rfl, ?_⟩
  · change OnStack d₀ (w₁.set e').stackelm n
    rw [hset]
    exact OnStack.pop (hc ▸ h) hu
  · rw [Work.left_eq, hleft, hc]
    change P ++ leftFrom w.stackelm n = P ++ leftFrom (w₁.set e').stackelm n
    rw [hset, leftFrom_congr hlow]
  · change turnsFrom (w₁.set e').stackelm n < _
    rw [hset, turnsFrom_congr hlow, hc, turnsFrom]
    rw [hc] at hpos
    omega

/-- The block is done after the elements `P`, which were its rest. -/
theorem BlockDone.spec {w₁ : Work} {t : Trip} (hb : BlockDone w₁ t)
    (h : OnStack d₀ w.stackelm w.cur_sp)
    (hstk : w₁.stackelm = w.stackelm) (hsp : w₁.cur_sp = w.cur_sp)
    (hleft : w.elm.left = P ++ rest w.elm.loop_p.count w.elm.loop_p.blocksize
      (w.elm.loop_p.element w.elm.orig_offset) w.elm.index (w.elm.loop_p.blocksize w.elm.index))
    (hle : w.stream_off + total Item.size P ≤ last) (hm : Moved w w₁ P)
    (hcur : w.elm.loop_p.isFinal = false → w.elm.curblock = 0) : TripSpec d₀ last w t := by
  have helm : w₁.elm = w.elm := by rw [Work.elm, Work.elm, hstk, hsp]
  rw [BlockDone, helm] at hb
  rcases hb with ⟨hlt, e', rfl, hn⟩ | ⟨hge, e', rfl, hu⟩
  · exact next_block_spec h hstk hsp hleft hle hm hcur hlt hn
  · rw [rest_last_block hge, List.append_nil] at hleft
    cases hc : w.cur_sp with
    | zero => exact pop_outer_spec h hstk hsp hleft hle hm hu hc
    | succ n => exact pop_inner_spec h hstk hsp hleft hle hm hu hc

/-- The transfer of `m` elements of the block. -/
theorem transfer_spec (h : Active w.elm) (hf : w.elm.loop_p.isFinal = true) (hr : Room w last) {m : ℕ}
    (hm : m ≤ w.elm.curblock) (hpos : 0 < m) (hfit : w.stream_off + m * w.elm.loop_p.el_size ≤ last) :
    ∃ P, w.elm.left = P ++ rest w.elm.loop_p.count w.elm.loop_p.blocksize
        (w.elm.loop_p.element w.elm.orig_offset) w.elm.index (w.elm.done + m) ∧
      total Item.size P = m * w.elm.loop_p.el_size ∧
      Moved w (transfer w w.elm.curoffset (m * w.elm.loop_p.el_size)) P := by
  have hlast : last < 2 ^ 64 := hr.lt.trans (by decide)
  obtain ⟨P, hleft, htotal, haddr⟩ := leaf_elements h hf hm
  refine ⟨P, hleft, htotal, transfer_moved htotal haddr (by omega) (fun hn => ?_)
    (Nat.mul_pos hpos (el_size_pos h hf))⟩
  have := hr.params hn
  omega

/-- Some of the block fits, and no more. -/
theorem doBlocks_some (h : OnStack d₀ w.stackelm w.cur_sp) (hf : w.elm.loop_p.isFinal = true)
    (hr : Room w last) {m : ℕ} (hm : m ≠ 0) (hlt : m < w.elm.curblock)
    (hfit : w.stream_off + m * w.elm.loop_p.el_size ≤ last)
    (hstop : last < w.stream_off + m * w.elm.loop_p.el_size + w.elm.loop_p.el_size) :
    TripSpec d₀ last w (doBlocks w m) := by
  have ha : Active w.elm := h.active _ le_rfl
  obtain ⟨P, hleft, htotal, hmoved⟩ := transfer_spec ha hf hr hlt.le (Nat.pos_of_ne_zero hm) hfit
  obtain ⟨haf, hafter⟩ := after_spec ha hf hlt
  -- the stack has the element that is left after the transfer, and nothing else of it changes
  obtain ⟨hstk, hsp⟩ := transfer_stack w w.elm.curoffset (m * w.elm.loop_p.el_size)
  obtain ⟨w₁, hw₁⟩ : ∃ w₁, w₁ = (transfer w w.elm.curoffset (m * w.elm.loop_p.el_size)).set
      (w.elm.after m) := ⟨_, rfl⟩
  have hstack : w₁.stackelm = update w.stackelm w.cur_sp (w.elm.after m) := by
    rw [hw₁, ← hstk, ← hsp]
    rfl
  have hsp₁ : w₁.cur_sp = w.cur_sp := by
    rw [hw₁]
    exact hsp
  have helm : w₁.elm = w.elm.after m := by
    rw [Work.elm, hstack, hsp₁, Function.update_self]
  -- not all blocks fit, so the walk stops here
  have hdo : doBlocks w m = .leave w₁ (some w₁.cur_sp) := by
    rw [hsp₁, hw₁]
    simp only [doBlocks, if_neg hm, if_pos hlt, hsp]
    rfl
  have hmoved₁ : Moved w w₁ P := by
    rw [hw₁]
    exact hmoved.same rfl rfl rfl
  rw [hdo]
  -- what has moved, what is left, and that no further block fits
  refine ⟨P, rfl, ?_, ?_, htotal ▸ hfit, hmoved₁, ?_, fun j hj => ?_⟩
  · rw [hstack, hsp₁]
    exact h.set haf ⟨rfl, rfl, rfl, rfl⟩
  · rw [Work.left_eq, hleft, Work.left, hsp₁, hstack, leftFrom_update, hafter, List.append_assoc]
  · -- the trips that a final loop takes do not depend on how many blocks are left
    have hturns : (w.elm.after m).turns = w.elm.turns := by
      have hf' : (w.elm.after m).loop_p.isFinal = true := hf
      rw [Stackelm.turns, Stackelm.turns, if_pos hf, if_pos hf']
      rfl
    rw [hstack, hsp₁, turnsFrom_update, hturns, turnsFrom_eq w.stackelm w.cur_sp]
    rfl
  · obtain ⟨i, R, hi, hsize⟩ := leaf_head haf hf
    rw [Work.left_eq, helm, hi] at hj
    have hij : i = j := by simpa using hj
    rw [hmoved₁.stream_off, htotal, ← hij, hsize]
    exact hstop

/-- All of the block fits. -/
theorem doBlocks_all (h : OnStack d₀ w.stackelm w.cur_sp) (hf : w.elm.loop_p.isFinal = true)
    (hr : Room w last) (hfit : w.stream_off + w.elm.curblock * w.elm.loop_p.el_size ≤ last) :
    TripSpec d₀ last w (doBlocks w w.elm.curblock) := by
  have ha : Active w.elm := h.active _ le_rfl
  have hcur := (ha.final hf).1
  have hcle := ha.curblock_le
  obtain ⟨P, hleft, htotal, hmoved⟩ := transfer_spec ha hf hr le_rfl hcur hfit
  obtain ⟨hstk, hsp⟩ := transfer_stack w w.elm.curoffset (w.elm.curblock * w.elm.loop_p.el_size)
  have helm := transfer_elm w w.elm.curoffset (w.elm.curblock * w.elm.loop_p.el_size)
  have hdone : w.elm.done + w.elm.curblock = w.elm.loop_p.blocksize w.elm.index := by
    rw [Stackelm.done]
    omega
  have hdo : doBlocks w w.elm.curblock =
      finishBlocks (transfer w w.elm.curoffset (w.elm.curblock * w.elm.loop_p.el_size))
        w.elm.curblock := by
    rw [doBlocks, if_neg hcur.ne', if_neg (lt_irrefl _)]
  have hfin := finishBlocks_spec (helm.symm ▸ ha) (helm.symm ▸ hf)
  rw [helm, ← hdo] at hfin
  rw [hdone] at hleft
  refine hfin.spec h hstk hsp hleft (htotal ▸ hfit) hmoved fun hf' => ?_
  exact absurd hf (by simp [hf'])

/-- A leaf: as many elements as fit before `last`. -/
theorem leaf_spec (h : OnStack d₀ w.stackelm w.cur_sp) (hf : w.elm.loop_p.isFinal = true)
    (hr : Room w last) : TripSpec d₀ last w (leaf last w) := by
  have ha : Active w.elm := h.active _ le_rfl
  have hel := el_size_pos ha hf
  have hle := hr.le
  have hlast : last < 2 ^ 64 := hr.lt.trans (by decide)
  have hwhole : w.stream_off + w.elm.curblock * w.elm.loop_p.el_size < 2 ^ 64 := by
    obtain ⟨P, hleft, htotal, -⟩ := leaf_elements ha hf le_rfl
    have hsize := hr.size
    rw [Work.left_eq, hleft, total_append, total_append, htotal] at hsize
    omega
  have hwrap : wrap64 (w.stream_off + w.elm.curblock * w.elm.loop_p.el_size) =
      w.stream_off + w.elm.curblock * w.elm.loop_p.el_size := Nat.mod_eq_of_lt hwhole
  have hsub : wrap64 (last + 2 ^ 64 - w.stream_off) = last - w.stream_off := by
    rw [wrap64]
    omega
  have hroom := Nat.div_add_mod (last - w.stream_off) w.elm.loop_p.el_size
  have hmod := Nat.mod_lt (last - w.stream_off) hel
  rw [Nat.mul_comm] at hroom
  simp only [leaf, upTo, hwrap, hsub]
  by_cases hshort : last < w.stream_off + w.elm.curblock * w.elm.loop_p.el_size
  · rw [if_pos ⟨hr.lt.ne, hshort⟩]
    by_cases hm : (last - w.stream_off) / w.elm.loop_p.el_size = 0
    · -- not even one element fits
      rw [hm, Nat.zero_mul, Nat.zero_add] at hroom
      obtain ⟨i, R, hleft, hi⟩ := leaf_head ha hf
      rw [if_pos hm]
      refine ⟨[], rfl, h, rfl, hr.le, Moved.refl w, le_rfl, fun j hj => ?_⟩
      rw [Work.left_eq, hleft] at hj
      have hij : i = j := by simpa using hj
      rw [← hij, hi]
      omega
    · rw [if_neg hm]
      refine doBlocks_some h hf hr hm ?_ (by omega) (by omega)
      rw [Nat.div_lt_iff_lt_mul hel]
      omega
  · rw [if_neg fun hs => hshort hs.2]
    exact doBlocks_all h hf hr (not_lt.mp hshort)

/-- The trip that goes on to the next block, and leaves the loop where there is none. -/
theorem newBlock_trip (h : OnStack d₀ w.stackelm w.cur_sp) (hf : w.elm.loop_p.isFinal = false)
    (hr : Room w last) (hcur : w.elm.curblock = 0) : TripSpec d₀ last w (newBlock w) := by
  have ha : Active w.elm := h.active _ le_rfl
  refine (newBlock_spec ha hf).spec (P := []) h rfl rfl ?_ hr.le (Moved.refl w) fun _ => hcur
  rw [Stackelm.left, Stackelm.done, hcur, Nat.sub_zero]
  rfl

/-- The trip down into the next loop: nothing is handed over, but the loop's own turns are fewer by
one. -/
theorem push_trip (h : OnStack d₀ w.stackelm w.cur_sp) (hf : w.elm.loop_p.isFinal = false)
    (hr : Room w last) (hcur : 0 < w.elm.curblock) : TripSpec d₀ last w (push w) := by
  have ha : Active w.elm := h.active _ le_rfl
  obtain ⟨hon, hstart, hloop, hoff⟩ := h.pushed_spec hf
  have hlow : ∀ j ≤ w.cur_sp, w.pushed j = update w.stackelm w.cur_sp w.elm.given j := fun j hj =>
    Function.update_of_ne (by omega) ..
  refine ⟨[], hon, ?_, hr.le, (Moved.refl w).same rfl rfl rfl, ?_⟩
  · change w.left = (w.pushed (w.cur_sp + 1)).left ++ leftFrom w.pushed w.cur_sp
    rw [leftFrom_congr hlow, leftFrom_update, hstart.left, hloop, hoff, Work.left_eq,
      ha.left_given hcur, ha.elementOffset hf, List.append_assoc]
  · change (w.pushed (w.cur_sp + 1)).turns + turnsFrom w.pushed w.cur_sp < _
    rw [turnsFrom_congr hlow, turnsFrom_update, hstart.turns, hloop, turnsFrom_eq w.stackelm w.cur_sp]
    have := ha.turns_given hf hcur
    rw [← Work.elm]
    omega

/-- Every trip hands over the front of what is left and takes a turn off: the three kinds of trips.
-/
theorem trip_spec (h : OnStack d₀ w.stackelm w.cur_sp) (hr : Room w last) :
    TripSpec d₀ last w (trip last w) := by
  have ha : Active w.elm := h.active _ le_rfl
  rw [trip]
  by_cases hf : w.elm.loop_p.isFinal = true
  · rw [if_pos hf, if_neg ha.curcount_pos.ne']
    exact leaf_spec h hf hr
  · have hf' : w.elm.loop_p.isFinal = false := Bool.eq_false_iff.mpr hf
    rw [if_neg hf]
    split_ifs with hcur
    · exact newBlock_trip h hf' hr hcur
    · exact push_trip h hf' hr (Nat.pos_of_ne_zero hcur)

/-! ## A walk -/

/-- Where a walk ends: it has handed over what fits before `last`. -/
structure Walked (d₀ : Dataloop) (last : ℕ) (w w' : Work) (cur_sp : Option ℕ) : Prop where
  moved : Moved w w' (fit Item.size (last - w.stream_off) w.left)
  done : cur_sp = none → Idle d₀ w'.stackelm ∧ fit Item.size (last - w.stream_off) w.left = w.left
  standing : ∀ sp, cur_sp = some sp → sp = w'.cur_sp ∧ OnStack d₀ w'.stackelm w'.cur_sp ∧
    w.left = fit Item.size (last - w.stream_off) w.left ++ w'.left ∧
    turnsFrom w'.stackelm w'.cur_sp ≤ turnsFrom w.stackelm w.cur_sp

/-- A whole walk, by induction on the fuel: it ends at its bound or with nothing left, and enough
fuel is one more than the turns. -/
theorem trips_spec (h : OnStack d₀ w.stackelm w.cur_sp) (hr : Room w last) {fuel : ℕ}
    (hfuel : turnsFrom w.stackelm w.cur_sp < fuel) :
    ∃ w' cur_sp, trips last fuel w = some (w', cur_sp) ∧ Walked d₀ last w w' cur_sp := by
  -- a trip that goes on leaves fewer trips, so the fuel is enough
  induction fuel generalizing w with
  | zero => exact absurd hfuel (Nat.not_lt_zero _)
  | succ fuel ih =>
      have hspec := trip_spec h hr
      rw [trips]
      cases ht : trip last w with
      | again w' =>
          rw [ht] at hspec
          obtain ⟨P, hon, hleft, hle, hm, hturns⟩ := hspec
          -- the items of the trip fit, so what fits in all is them and what fits of the rest
          have htotal : total Item.size P ≤ last - w.stream_off := by omega
          have hroom : last - w'.stream_off = last - w.stream_off - total Item.size P := by
            rw [hm.stream_off]
            omega
          obtain ⟨w'', cs, hrun, hw⟩ := ih hon (hr.next hleft hle hm) (by omega)
          have hfit : fit Item.size (last - w.stream_off) w.left =
              P ++ fit Item.size (last - w'.stream_off) w'.left := by
            rw [hleft, fit_append htotal, hroom]
          refine ⟨w'', cs, hrun, ?_, fun hc => ?_, fun sp hc => ?_⟩
          · rw [hfit]
            exact hm.trans hw.moved
          · obtain ⟨hidle, hall⟩ := hw.done hc
            rw [hfit, hall, hleft]
            exact ⟨hidle, rfl⟩
          · obtain ⟨hsp, hon', hrest, hle'⟩ := hw.standing sp hc
            refine ⟨hsp, hon', ?_, by omega⟩
            rw [hfit, List.append_assoc, ← hrest, hleft]
      | leave w' cs =>
          rw [ht] at hspec
          -- the walk stops, since nothing is left or since the next item does not fit
          cases cs with
          | none =>
              obtain ⟨hidle, hle, hm⟩ := hspec
              have htotal : total Item.size w.left ≤ last - w.stream_off := by omega
              have hfit : fit Item.size (last - w.stream_off) w.left = w.left := by
                have := fit_append (R := []) htotal
                rwa [List.append_nil, fit, List.append_nil] at this
              refine ⟨w', none, rfl, by rwa [hfit], fun _ => ⟨hidle, hfit⟩, ?_⟩
              exact fun sp hc => absurd hc (by simp)
          | some sp =>
              obtain ⟨P, hsp, hon, hleft, hle, hm, hturns, hstop⟩ := hspec
              have htotal : total Item.size P ≤ last - w.stream_off := by omega
              have hfit : fit Item.size (last - w.stream_off) w.left = P := by
                rw [hleft, fit_append htotal, fit_eq_nil, List.append_nil]
                intro i hi
                have := hstop i hi
                rw [hm.stream_off] at this
                omega
              refine ⟨w', some sp, rfl, by rwa [hfit], fun hc => absurd hc (by simp), ?_⟩
              intro sp' hc
              obtain rfl : sp = sp' := by simpa using hc
              exact ⟨hsp, hon, by rwa [hfit], hturns⟩

end Pspin.Datatypes
