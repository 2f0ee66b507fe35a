/-
INCR bursts of AXI.

A burst has a start address, a number of beats and a number of bytes in a beat. Its first
beat begins at the start address, every later one at the next multiple of the beat size,
and a beat ends where the next one begins. The bus has `2 ^ w` lanes; a byte travels on
the lane that its address has in its line.

This is the protocol only, over any type of data: which addresses a beat carries, what a
master has written with its data beats, and what a slave may answer.
-/
import Mathlib.Algebra.Order.Ring.Nat
import Mathlib.Data.List.Range
import Mathlib.Tactic.Common
import Mathlib.Tactic.Ring

set_option autoImplicit false

namespace AxiIncr

structure Burst where
  addr : ℕ
  /-- Beats, less one. -/
  len : ℕ
  /-- Logarithm of the bytes in a beat. -/
  size : ℕ
deriving DecidableEq

/-- A data beat of a write: what is on the lanes, and which of them count. -/
structure WBeat (D : Type*) where
  data : ℕ → D
  strb : ℕ → Bool
  last : Bool

/-- The bytes of `f` at the addresses from `a` on. -/
def stretch {D : Type*} (a n : ℕ) (f : ℕ → D) : List (ℕ × D) :=
  (List.range n).map fun i => (a + i, f i)

section Stretch

variable {D : Type*} {a m n : ℕ} {f g : ℕ → D}

@[simp] theorem length_stretch : (stretch a n f).length = n := by simp [stretch]

theorem stretch_append (hg : ∀ i < n, g i = f (m + i)) :
    stretch a m f ++ stretch (a + m) n g = stretch a (m + n) f := by
  have hsecond : stretch (a + m) n g = (List.range n).map fun i => (a + (m + i), f (m + i)) := by
    apply List.map_congr_left
    intro i hi
    rw [hg i (List.mem_range.mp hi), Nat.add_assoc]
  rw [hsecond, stretch, stretch, List.range_add, List.map_append, List.map_map]
  rfl

theorem stretch_congr (h : ∀ i < n, f i = g i) : stretch a n f = stretch a n g := by
  apply List.map_congr_left
  intro i hi
  rw [h i (List.mem_range.mp hi)]

end Stretch

namespace Burst

variable (b : Burst) (w i k : ℕ)

/-- The start address, down to a multiple of the beat size. -/
def aligned : ℕ := b.addr / 2 ^ b.size * 2 ^ b.size

/-- Where beat `i` begins. -/
def beat_addr : ℕ := if i = 0 then b.addr else b.aligned + i * 2 ^ b.size

/-- Where beat `i` ends. -/
def beat_stop : ℕ := b.aligned + (i + 1) * 2 ^ b.size

/-- Where the burst ends. -/
def stop : ℕ := b.beat_stop b.len

/-- The addresses that beat `i` carries. -/
def beat_bytes : List ℕ := List.range' (b.beat_addr i) (b.beat_stop i - b.beat_addr i)

/-- The address of lane `k` in beat `i`. -/
def lane_addr : ℕ := b.beat_addr i / 2 ^ w * 2 ^ w + k

/-- The rules for a burst: beats no wider than the bus, at most 256 of them, within a page. -/
structure Legal : Prop where
  size_le : b.size ≤ w
  len_lt : b.len < 256
  page : b.addr / 4096 = (b.stop - 1) / 4096

instance : Decidable (b.Legal w) :=
  decidable_of_iff (b.size ≤ w ∧ b.len < 256 ∧ b.addr / 4096 = (b.stop - 1) / 4096)
    ⟨fun ⟨h, h', h''⟩ => ⟨h, h', h''⟩, fun ⟨h, h', h''⟩ => ⟨h, h', h''⟩⟩

/-! ## Where the beats lie -/

variable {b w i k}

theorem aligned_le : b.aligned ≤ b.addr := Nat.div_mul_le_self _ _

theorem addr_lt : b.addr < b.aligned + 2 ^ b.size := by
  have hmod := Nat.mod_lt b.addr (Nat.two_pow_pos b.size)
  have hdiv := Nat.div_add_mod' b.addr (2 ^ b.size)
  unfold aligned
  omega

@[simp] theorem beat_addr_zero : b.beat_addr 0 = b.addr := if_pos rfl

/-- A beat begins where the one before it ends. -/
theorem beat_addr_succ : b.beat_addr (i + 1) = b.beat_stop i := if_neg (Nat.succ_ne_zero i)

theorem aligned_le_beat_addr : b.aligned + i * 2 ^ b.size ≤ b.beat_addr i := by
  cases i with
  | zero => simpa using aligned_le
  | succ i => exact le_of_eq beat_addr_succ.symm

theorem beat_addr_lt : b.beat_addr i < b.beat_stop i := by
  cases i with
  | zero =>
      have hlt := b.addr_lt
      simpa [beat_stop] using hlt
  | succ i =>
      have hpos := Nat.two_pow_pos b.size
      rw [beat_addr_succ]
      unfold beat_stop
      rw [Nat.succ_mul (i + 1)]
      omega

theorem addr_lt_stop : b.addr < b.stop := by
  have hlt := b.addr_lt
  have hle : 1 * 2 ^ b.size ≤ (b.len + 1) * 2 ^ b.size :=
    Nat.mul_le_mul_right _ (Nat.le_add_left 1 b.len)
  unfold stop beat_stop
  omega

/-! ## Lanes -/

theorem two_pow_dvd (h : b.size ≤ w) : 2 ^ b.size ∣ 2 ^ w := Nat.pow_dvd_pow 2 h

/-- A beat stays in one line of the bus. -/
theorem beat_stop_le (h : b.size ≤ w) : b.beat_stop i ≤ b.beat_addr i / 2 ^ w * 2 ^ w + 2 ^ w := by
  obtain ⟨c, hc⟩ := two_pow_dvd h
  have hpos := Nat.two_pow_pos b.size
  have hle : b.aligned + i * 2 ^ b.size ≤ b.beat_addr i := aligned_le_beat_addr
  have hlt : b.beat_addr i < (b.beat_addr i / 2 ^ w + 1) * 2 ^ w := by
    rw [← Nat.div_lt_iff_lt_mul (Nat.two_pow_pos w)]
    exact Nat.lt_succ_self _
  -- both ends are multiples of the beat size
  have hstart : b.aligned + i * 2 ^ b.size = (b.addr / 2 ^ b.size + i) * 2 ^ b.size := by
    rw [aligned, Nat.add_mul]
  have hline : (b.beat_addr i / 2 ^ w + 1) * 2 ^ w
      = (b.beat_addr i / 2 ^ w + 1) * c * 2 ^ b.size := by
    rw [hc]
    ring
  have hunits : b.addr / 2 ^ b.size + i < (b.beat_addr i / 2 ^ w + 1) * c := by
    by_contra hge
    have hmul := Nat.mul_le_mul_right (2 ^ b.size) (Nat.le_of_not_lt hge)
    omega
  have hstop : b.beat_stop i = (b.addr / 2 ^ b.size + i + 1) * 2 ^ b.size := by
    unfold beat_stop aligned
    ring
  have hmul := Nat.mul_le_mul_right (2 ^ b.size) (Nat.succ_le_of_lt hunits)
  rw [hstop, ← Nat.succ_mul, hline]
  exact hmul

/-- The bytes of a beat are on its line, each on its own lane. -/
theorem lane_addr_mod (h : b.size ≤ w) {a : ℕ} (ha : a ∈ b.beat_bytes i) :
    b.lane_addr w i (a % 2 ^ w) = a := by
  obtain ⟨hlo, hhi⟩ := List.mem_range'_1.mp ha
  have hlt : b.beat_addr i < b.beat_stop i := beat_addr_lt
  have hstop := beat_stop_le (i := i) h
  have hline : a / 2 ^ w = b.beat_addr i / 2 ^ w := by
    apply Nat.le_antisymm
    · rw [← Nat.lt_succ_iff, Nat.div_lt_iff_lt_mul (Nat.two_pow_pos w), Nat.succ_mul]
      omega
    · exact Nat.div_le_div_right hlo
  unfold lane_addr
  rw [← hline]
  exact Nat.div_add_mod' a (2 ^ w)

/-! ## Writes -/

section Write

variable {D : Type*}

/-- What a data beat writes as beat `i`: the bytes of its strobed lanes. -/
def beat_written (b : Burst) (w i : ℕ) (beat : WBeat D) : List (ℕ × D) :=
  ((List.range (2 ^ w)).filter beat.strb).map fun k => (b.lane_addr w i k, beat.data k)

/-- Lanes in a row. -/
theorem filter_lanes {strb : ℕ → Bool} {n lo m : ℕ}
    (hstrb : ∀ k < n, strb k = true ↔ lo ≤ k ∧ k < lo + m) (hle : lo + m ≤ n) :
    (List.range n).filter strb = List.range' lo m := by
  obtain ⟨c, rfl⟩ := Nat.exists_eq_add_of_le hle
  rw [List.range_eq_range', ← List.range'_append_1, ← List.range'_append_1,
    List.filter_append, List.filter_append, List.filter_eq_nil_iff.mpr,
    List.filter_eq_self.mpr, List.filter_eq_nil_iff.mpr, List.nil_append, List.append_nil,
    Nat.zero_add]
  all_goals
    intro k hk
    have hk' := List.mem_range'_1.mp hk
    have hiff := hstrb k (by omega)
    rw [hiff]
    omega

/-- **A beat that strobes lanes in a row** writes the bytes on them, one behind the other. -/
theorem beat_written_eq {b : Burst} {w i : ℕ} {beat : WBeat D} {lo m : ℕ} {f : ℕ → D}
    (hstrb : ∀ k < 2 ^ w, beat.strb k = true ↔ lo ≤ k ∧ k < lo + m) (hle : lo + m ≤ 2 ^ w)
    (hdata : ∀ j < m, beat.data (lo + j) = f j) :
    b.beat_written w i beat = stretch (b.lane_addr w i lo) m f := by
  unfold beat_written stretch
  rw [filter_lanes hstrb hle, List.range'_eq_map_range, List.map_map]
  apply List.map_congr_left
  intro j hj
  simp only [Function.comp_apply, hdata j (List.mem_range.mp hj), lane_addr, Nat.add_assoc]

/-- What the data beats of a burst write, from beat `i` on. -/
def written_from (b : Burst) (w : ℕ) : ℕ → List (WBeat D) → List (ℕ × D)
  | _, [] => []
  | i, beat :: beats => b.beat_written w i beat ++ b.written_from w (i + 1) beats

end Write

/-! ## Reads -/

/-- The lanes of beat `i` have what is in memory at their addresses. Nothing is said about
the other lanes. -/
def Carries {D : Type*} (b : Burst) (w i : ℕ) (mem data : ℕ → D) : Prop :=
  ∀ a ∈ b.beat_bytes i, data (a % 2 ^ w) = mem a

instance {D : Type*} [DecidableEq D] (b : Burst) (w i : ℕ) (mem data : ℕ → D) :
    Decidable (b.Carries w i mem data) :=
  inferInstanceAs (Decidable (∀ a ∈ _, _))

end Burst

/-- What the data beats of several bursts write; each burst takes as many as it has. -/
def written {D : Type*} (w : ℕ) : List Burst → List (WBeat D) → List (ℕ × D)
  | [], _ => []
  | b :: bs, beats =>
    b.written_from w 0 (beats.take (b.len + 1)) ++ written w bs (beats.drop (b.len + 1))

theorem written_cons {D : Type*} {w : ℕ} {b : Burst} {bs : List Burst} {now later : List (WBeat D)}
    (h : now.length = b.len + 1) :
    written w (b :: bs) (now ++ later) = b.written_from w 0 now ++ written w bs later := by
  rw [written, ← h, List.take_left, List.drop_left]

/-! ## Answers -/

/-- All beats of the bursts, in order, each with its number in its burst. -/
def beats (bs : List Burst) : List (Burst × ℕ) :=
  bs.flatMap fun b => (List.range (b.len + 1)).map fun i => (b, i)

/-- What a slave that holds `mem` and keeps the order of the bursts may put on the lanes as
beat number `r`, with the mark of the last beat of a burst. -/
def Answers {D : Type*} (w : ℕ) (mem : ℕ → D) (bs : List Burst) (r : ℕ) (data : ℕ → D)
    (last : Bool) : Prop :=
  ∃ b i, (beats bs)[r]? = some (b, i) ∧ b.Carries w i mem data ∧ last = decide (i = b.len)

section Beats

variable {b : Burst} {bs bs' : List Burst} {i r : ℕ}

theorem beats_append : beats (bs ++ bs') = beats bs ++ beats bs' := List.flatMap_append

theorem beats_cons : beats (b :: bs) = (List.range (b.len + 1)).map (fun i => (b, i)) ++ beats bs :=
  List.flatMap_cons

theorem length_beats : (beats bs).length = (bs.map fun b => b.len + 1).sum := by
  induction bs with
  | nil => rfl
  | cons b bs ih =>
      rw [beats_cons, List.length_append, ih, List.map_cons, List.sum_cons]
      simp

/-- The beat is one of the first burst, or of the others. -/
theorem getElem?_beats_cons : (beats (b :: bs))[r]?
    = if r < b.len + 1 then some (b, r) else (beats bs)[r - (b.len + 1)]? := by
  rw [beats_cons]
  split_ifs with h
  · rw [List.getElem?_append_left (by simpa using h), List.getElem?_map,
      List.getElem?_range h]
    rfl
  · rw [List.getElem?_append_right (by simpa using h)]
    simp

theorem Answers.of_prefix {D : Type*} {w : ℕ} {mem data : ℕ → D} {last : Bool}
    (h : Answers w mem bs r data last) (hp : bs <+: bs') : Answers w mem bs' r data last := by
  obtain ⟨rest, rfl⟩ := hp
  obtain ⟨b, i, hbeat, hrest⟩ := h
  refine ⟨b, i, ?_, hrest⟩
  rw [beats_append, List.getElem?_append_left (List.getElem?_eq_some_iff.mp hbeat).1]
  exact hbeat

end Beats

end AxiIncr
