/-
`cluster_rb`: a ring buffer of memory slots, freed in any order.

Allocations are contiguous and come from the tail; where the rest of the buffer is too
short they start again at slot 0. The head moves over free slots, at most up to the tail.
A bitmap says which slots are taken.

The first half is the translation, for any buffer whose slots are a power of two. The
second half is what its callers rely on: a request within the reported free space gets
slots that are free (`grant`), and the taken slots stay between head and tail (`Inv`).
-/
import Mathlib.Data.Nat.Log
import Mathlib.Data.Set.Basic
import Mathlib.Tactic.Common
import Mathlib.Tactic.Ring
import Pspin.Lzc

set_option autoImplicit false

namespace Pspin.ClusterRb

/-- The length of the buffer and of its slots, in bytes. The two conditions are those of the
instances: a slot has bytes, and no slot is cut. -/
structure Params where
  BuffMemLength : ℕ
  MemSlotSize : ℕ
  slot_pos : 0 < MemSlotSize
  /-- the buffer is a whole number of slots -/
  whole : BuffMemLength / MemSlotSize * MemSlotSize = BuffMemLength
  /-- a slot pointer wraps at the last slot -/
  wraps : 2 ^ Nat.clog 2 (BuffMemLength / MemSlotSize) = BuffMemLength / MemSlotSize

def Params.NumSlots (p : Params) : ℕ := p.BuffMemLength / p.MemSlotSize

/-- Width of `slot_ptr_t`. -/
def Params.ptr_w (p : Params) : ℕ := Nat.clog 2 p.NumSlots

/-- The registers. The bitmap is read on `[0, NumSlots)`. -/
structure State where
  bitmap_q : ℕ → Bool
  head_ptr_q : ℕ
  tail_ptr_q : ℕ

/-- The input ports in one cycle. -/
structure Input where
  alloc_valid_i : Bool
  alloc_size_i : ℕ
  free_valid_i : Bool
  free_index_i : ℕ
  free_size_i : ℕ

def reset : State := ⟨fun _ => false, 0, 0⟩

variable (p : Params)

/-- Slots for a size in bytes, as a `slot_size_t`. -/
def slots_of (size : ℕ) : ℕ := (size + p.MemSlotSize - 1) / p.MemSlotSize % 2 ^ (p.ptr_w + 1)

def push_size (i : Input) : ℕ := slots_of p i.alloc_size_i

def pop_size (i : Input) : ℕ := slots_of p i.free_size_i

/-- The first slot of the free. -/
def pop_idx (i : Input) : ℕ := i.free_index_i / p.MemSlotSize % 2 ^ p.ptr_w

/-! ## The head -/

/-- How far the head may go: to the tail. Where head and tail meet this is 0, also in a full ring.
-/
def head_ptr_incr_max (s : State) : ℕ :=
  if s.head_ptr_q ≤ s.tail_ptr_q then s.tail_ptr_q - s.head_ptr_q
  else s.tail_ptr_q + p.NumSlots - s.head_ptr_q

/-- The bitmap seen from the head: a slice of the bitmap written twice. -/
def bitmap_shifted (s : State) (k : ℕ) : Bool := s.bitmap_q ((s.head_ptr_q + k) % p.NumSlots)

/-- How many free slots lie before the head. -/
def head_ptr_incr (s : State) : ℕ :=
  Lzc.cnt_o p.NumSlots (bitmap_shifted p s)
    + if Lzc.empty_o p.NumSlots (bitmap_shifted p s) then 1 else 0

def head_ptr_incr_real (s : State) : ℕ :=
  if head_ptr_incr p s < head_ptr_incr_max p s then head_ptr_incr p s else head_ptr_incr_max p s

/-! ## Free space -/

def any_taken (s : State) : Bool := (List.range p.NumSlots).any s.bitmap_q

/-- Head and tail meet in a full ring. -/
def equal_full (s : State) : Bool := s.head_ptr_q == s.tail_ptr_q && any_taken p s

def equal_empty (s : State) : Bool := s.head_ptr_q == s.tail_ptr_q && !any_taken p s

/-- Slots between the tail and the end of the buffer. -/
def free_slots_to_end (s : State) : ℕ := p.NumSlots - s.tail_ptr_q

/-- Slots between its start and the head. -/
def free_slots_to_head (s : State) : ℕ := s.head_ptr_q

/-- The longest piece that can be granted. A request is never split, so behind the head it is the
longer of the two ends. -/
def free_slots (s : State) : ℕ :=
  if equal_full p s then 0
  else if s.head_ptr_q ≤ s.tail_ptr_q then
    if free_slots_to_end p s > free_slots_to_head s then free_slots_to_end p s
    else free_slots_to_head s
  else s.head_ptr_q - s.tail_ptr_q

/-- What the buffer reports, in bytes. -/
def free_space_o (s : State) : ℕ := free_slots p s * p.MemSlotSize

/-- Whether the request fits, and the slots to skip at the end of the buffer. The last
comparison subtracts the head from the tail, in the bits of a `slot_size_t`. -/
def fit (s : State) (i : Input) : Bool × ℕ :=
  if equal_full p s then (false, 0)
  else if s.head_ptr_q ≤ s.tail_ptr_q then
    if push_size p i ≤ p.NumSlots - s.tail_ptr_q then (true, 0)
    else if push_size p i ≤ s.head_ptr_q then (true, p.NumSlots - s.tail_ptr_q)
    else (false, 0)
  else if push_size p i ≤ (s.tail_ptr_q + 2 ^ (p.ptr_w + 1) - s.head_ptr_q) % 2 ^ (p.ptr_w + 1)
    then (true, 0)
  else (false, 0)

/-- The request can be granted. -/
def data_fits (s : State) (i : Input) : Bool := (fit p s i).1

def padding (s : State) (i : Input) : ℕ := (fit p s i).2

/-! ## Allocation, and a clock edge -/

def push_en (s : State) (i : Input) : Bool := data_fits p s i && i.alloc_valid_i

def pop_en (i : Input) : Bool := i.free_valid_i

/-- The first slot of the grant. -/
def push_idx (s : State) (i : Input) : ℕ := (s.tail_ptr_q + padding p s i) % 2 ^ p.ptr_w

/-- The request is granted in this cycle. -/
def alloc_ready_o (s : State) (i : Input) : Bool := push_en p s i

/-- The offset of the grant, in bytes. -/
def alloc_index_o (s : State) (i : Input) : ℕ := push_idx p s i * p.MemSlotSize

/-- Slot `k` is one of the `n` slots from `idx`. -/
def in_range (idx n k : ℕ) : Bool := decide (idx ≤ k ∧ k < idx + n)

/-- The slots that are granted or freed change over. Nothing checks that a freed slot was in use.
-/
def bitmap_d (s : State) (i : Input) (k : ℕ) : Bool :=
  s.bitmap_q k ^^ (push_en p s i && in_range (push_idx p s i) (push_size p i) k
    || pop_en i && in_range (pop_idx p i) (pop_size p i) k)

/-- Everything is quiet and the buffer is empty. -/
def rewinds (s : State) (i : Input) : Bool := !push_en p s i && !pop_en i && equal_empty p s

def head_ptr_d (s : State) (i : Input) : ℕ :=
  if rewinds p s i then 0 else (s.head_ptr_q + head_ptr_incr_real p s) % 2 ^ p.ptr_w

def tail_ptr_d (s : State) (i : Input) : ℕ :=
  if rewinds p s i then 0
  else if push_en p s i then (s.tail_ptr_q + padding p s i + push_size p i) % 2 ^ p.ptr_w
  else s.tail_ptr_q

def step (s : State) (i : Input) : State where
  bitmap_q := bitmap_d p s i
  head_ptr_q := head_ptr_d p s i
  tail_ptr_q := tail_ptr_d p s i

/-! ## The invariant -/

/-- Slot `k` is between head and tail, around the end where the tail is in front. Where
they are equal there is no bound. -/
def Window (head tail k : ℕ) : Prop :=
  head = tail ∨ (head < tail ∧ head ≤ k ∧ k < tail) ∨ (tail < head ∧ (head ≤ k ∨ k < tail))

/-- The slots in use lie between head and tail. -/
structure Inv (s : State) : Prop where
  head_lt : s.head_ptr_q < p.NumSlots
  tail_lt : s.tail_ptr_q < p.NumSlots
  bitmap_lt : ∀ k, s.bitmap_q k = true → k < p.NumSlots
  window : ∀ k, s.bitmap_q k = true → Window s.head_ptr_q s.tail_ptr_q k

/-- What a caller keeps: it asks for no more than the reported free space, and frees
slots that are taken. -/
structure Ok (s : State) (i : Input) : Prop where
  alloc : i.alloc_valid_i = true → i.alloc_size_i ≤ free_space_o p s
  free : i.free_valid_i = true → ∀ k, pop_idx p i ≤ k → k < pop_idx p i + pop_size p i →
    s.bitmap_q k = true

/-- The request ends at the head at the latest, where the tail is behind the head. -/
def Room (s : State) (i : Input) : Prop :=
  s.tail_ptr_q < s.head_ptr_q → s.tail_ptr_q + push_size p i ≤ s.head_ptr_q

/-- What a ring needs to stay in order: the only case in which it grants too much is left
out, and the slots freed are taken. -/
structure Safe (s : State) (i : Input) : Prop where
  room : i.alloc_valid_i = true → Room p s i
  free : i.free_valid_i = true → ∀ k, pop_idx p i ≤ k → k < pop_idx p i + pop_size p i →
    s.bitmap_q k = true

variable {p} {s : State} {i : Input}

/-- The pointers wrap at the end of the buffer. -/
theorem two_pow_ptr_w (p : Params) : 2 ^ p.ptr_w = p.NumSlots := p.wraps

theorem any_taken_iff (h : Inv p s) : any_taken p s = true ↔ ∃ k, s.bitmap_q k = true := by
  rw [any_taken, List.any_eq_true]
  constructor
  · rintro ⟨k, -, hk⟩
    exact ⟨k, hk⟩
  · rintro ⟨k, hk⟩
    exact ⟨k, List.mem_range.mpr (h.bitmap_lt k hk), hk⟩

/-- Equal pointers mean full, or nothing taken. -/
theorem not_taken_of_not_full (h : Inv p s) (hf : equal_full p s = false)
    (heq : s.head_ptr_q = s.tail_ptr_q) (k : ℕ) : s.bitmap_q k = false := by
  rw [Bool.eq_false_iff]
  intro hk
  have htaken := (any_taken_iff h).mpr ⟨k, hk⟩
  rw [equal_full, heq, BEq.rfl, htaken] at hf
  exact absurd hf (by simp)

/-- What is reported is no more than there is. -/
theorem free_slots_le (h : Inv p s) : free_slots p s ≤ p.NumSlots := by
  have hh := h.head_lt
  have ht := h.tail_lt
  unfold free_slots free_slots_to_end free_slots_to_head
  split_ifs <;> omega

/-- A size within the free space takes no more than the free slots. -/
theorem push_size_le (h : Inv p s) (ha : i.alloc_size_i ≤ free_space_o p s) :
    push_size p i ≤ free_slots p s := by
  have hle := free_slots_le h
  have hceil : (i.alloc_size_i + p.MemSlotSize - 1) / p.MemSlotSize ≤ free_slots p s := by
    rw [← Nat.lt_succ_iff, Nat.div_lt_iff_lt_mul p.slot_pos, Nat.succ_mul]
    have := p.slot_pos
    unfold free_space_o at ha
    omega
  exact le_trans (Nat.mod_le _ _) hceil

/-- Within the free space a request stops at the head. -/
theorem room_of_space (h : Inv p s) (ha : i.alloc_size_i ≤ free_space_o p s) : Room p s i := by
  intro hlt
  have hn := push_size_le h ha
  have hf : equal_full p s = false := by
    rw [equal_full, Bool.and_eq_false_iff]
    exact Or.inl (beq_eq_false_iff_ne.mpr (by omega))
  rw [free_slots, hf, if_neg Bool.false_ne_true, if_neg (by omega)] at hn
  omega

/-- A cycle within the protocol is a safe one. -/
theorem Ok.safe (ok : Ok p s i) (h : Inv p s) : Safe p s i where
  room := fun hv => room_of_space h (ok.alloc hv)
  free := ok.free

/-! ## A grant -/

/-- The slots of a request lie in the buffer, and nobody has them. -/
structure Granted (p : Params) (s : State) (i : Input) : Prop where
  region : push_idx p s i + push_size p i ≤ p.NumSlots
  free : ∀ k, push_idx p s i ≤ k → k < push_idx p s i + push_size p i → s.bitmap_q k = false

/-- A request with room is refused, or goes to one of three places: the tail, the start of
the buffer, or in front of the head. -/
theorem fit_room (h : Inv p s) (hr : Room p s i) :
    (fit p s i = (false, 0) ∧ (equal_full p s = true ∨ (s.head_ptr_q ≤ s.tail_ptr_q
        ∧ p.NumSlots < s.tail_ptr_q + push_size p i ∧ s.head_ptr_q < push_size p i)))
      ∨ (equal_full p s = false ∧ s.head_ptr_q ≤ s.tail_ptr_q
        ∧ s.tail_ptr_q + push_size p i ≤ p.NumSlots ∧ fit p s i = (true, 0))
      ∨ (equal_full p s = false ∧ s.head_ptr_q ≤ s.tail_ptr_q
        ∧ p.NumSlots < s.tail_ptr_q + push_size p i ∧ push_size p i ≤ s.head_ptr_q
        ∧ fit p s i = (true, p.NumSlots - s.tail_ptr_q))
      ∨ (equal_full p s = false ∧ s.tail_ptr_q < s.head_ptr_q
        ∧ s.tail_ptr_q + push_size p i ≤ s.head_ptr_q ∧ fit p s i = (true, 0)) := by
  have hh := h.head_lt
  have ht := h.tail_lt
  have hw : 2 ^ (p.ptr_w + 1) = 2 * p.NumSlots := by
    rw [Nat.pow_succ, two_pow_ptr_w, Nat.mul_comm]
  unfold fit
  by_cases hf : equal_full p s = true
  · exact Or.inl ⟨if_pos hf, Or.inl hf⟩
  · rw [if_neg hf]
    have hf' : equal_full p s = false := Bool.not_eq_true _ ▸ hf
    by_cases hle : s.head_ptr_q ≤ s.tail_ptr_q
    · rw [if_pos hle]
      by_cases hend : push_size p i ≤ p.NumSlots - s.tail_ptr_q
      · exact Or.inr (Or.inl ⟨hf', hle, by omega, if_pos hend⟩)
      · rw [if_neg hend]
        by_cases hhead : push_size p i ≤ s.head_ptr_q
        · rw [if_pos hhead]
          exact Or.inr (Or.inr (Or.inl ⟨hf', hle, by omega, hhead, rfl⟩))
        · rw [if_neg hhead]
          exact Or.inl ⟨rfl, Or.inr ⟨hle, by omega, by omega⟩⟩
    · -- the difference wraps, and is at least the slots of the whole buffer
      have hlt : s.tail_ptr_q < s.head_ptr_q := by omega
      have hroom := hr hlt
      rw [if_neg hle, hw, Nat.mod_eq_of_lt (by omega), if_pos (by omega)]
      exact Or.inr (Or.inr (Or.inr ⟨hf', hlt, hroom, rfl⟩))

/-- Within the free space only an empty request is refused, by a full buffer. -/
theorem refused_of_space (h : Inv p s) (ha : i.alloc_size_i ≤ free_space_o p s)
    (hfit : data_fits p s i = false) : push_size p i = 0 ∧ push_idx p s i = s.tail_ptr_q := by
  have hn := push_size_le h ha
  have hidx : fit p s i = (false, 0) → push_idx p s i = s.tail_ptr_q := by
    intro hfit
    rw [push_idx, padding, hfit, two_pow_ptr_w, Nat.add_zero, Nat.mod_eq_of_lt h.tail_lt]
  unfold free_slots free_slots_to_end free_slots_to_head at hn
  rcases fit_room h (room_of_space h ha) with ⟨hno, hf | ⟨hle, hend, hhead⟩⟩ | ⟨-, -, -, hyes⟩
    | ⟨-, -, -, -, hyes⟩ | ⟨-, -, -, hyes⟩
  · rw [if_pos hf] at hn
    exact ⟨by omega, hidx hno⟩
  · rw [if_pos hle] at hn
    split_ifs at hn
    · exact ⟨by omega, hidx hno⟩
    · omega
    · omega
  all_goals
    rw [data_fits, hyes] at hfit
    exact absurd hfit (by simp)

/-- **A grant is free.** A request that fits gets slots of the buffer that nobody has. -/
theorem granted_of_fits (h : Inv p s) (hr : Room p s i) (hfits : data_fits p s i = true) :
    Granted p s i := by
  have hh := h.head_lt
  have ht := h.tail_lt
  rw [data_fits] at hfits
  rcases fit_room h hr with ⟨hfit, -⟩ | ⟨hf, hle, hend, hfit⟩ | ⟨hf, hle, hend, hn, hfit⟩
    | ⟨hf, hlt, hn, hfit⟩
  · rw [hfit] at hfits
    exact absurd hfits Bool.false_ne_true
  · have hidx : push_idx p s i = s.tail_ptr_q := by
      rw [push_idx, padding, hfit, two_pow_ptr_w, Nat.add_zero, Nat.mod_eq_of_lt ht]
    refine ⟨by omega, fun k h1 h2 => ?_⟩
    -- a taken slot lies between head and tail, and the grant stays outside
    by_contra hk
    rcases h.window k (by simpa using hk) with heq | hw | hw
    · exact hk (not_taken_of_not_full h hf heq k)
    · omega
    · omega
  · -- the padding takes the grant to the start of the ring
    have hidx : push_idx p s i = 0 := by
      rw [push_idx, padding, hfit, two_pow_ptr_w, Nat.add_sub_cancel' (by omega), Nat.mod_self]
    refine ⟨by omega, fun k h1 h2 => ?_⟩
    by_contra hk
    rcases h.window k (by simpa using hk) with heq | hw | hw
    · exact hk (not_taken_of_not_full h hf heq k)
    · omega
    · omega
  · have hidx : push_idx p s i = s.tail_ptr_q := by
      rw [push_idx, padding, hfit, two_pow_ptr_w, Nat.add_zero, Nat.mod_eq_of_lt ht]
    refine ⟨by omega, fun k h1 h2 => ?_⟩
    by_contra hk
    rcases h.window k (by simpa using hk) with heq | hw | hw <;> omega

/-- A request within the reported free space gets slots of the buffer that nobody has. -/
theorem grant (h : Inv p s) (ha : i.alloc_size_i ≤ free_space_o p s) : Granted p s i := by
  cases hfits : data_fits p s i with
  | true => exact granted_of_fits h (room_of_space h ha) hfits
  | false =>
    obtain ⟨hn, hidx⟩ := refused_of_space h ha hfits
    have ht := h.tail_lt
    exact ⟨by omega, fun k h1 h2 => absurd h2 (by omega)⟩

/-- A request that takes slots is granted. -/
theorem push_en_of_pos (h : Inv p s) (ha : i.alloc_size_i ≤ free_space_o p s)
    (hv : i.alloc_valid_i = true) (hn : 0 < push_size p i) : push_en p s i = true := by
  rw [push_en, hv, Bool.and_true]
  cases hfits : data_fits p s i with
  | true => rfl
  | false =>
    have := (refused_of_space h ha hfits).1
    omega

theorem push_en_iff : push_en p s i = true ↔ data_fits p s i = true ∧ i.alloc_valid_i = true := by
  rw [push_en, Bool.and_eq_true]

/-- The slots of a granted request. -/
theorem Safe.granted (ok : Safe p s i) (h : Inv p s) (he : push_en p s i = true) :
    Granted p s i := by
  obtain ⟨hfits, hv⟩ := push_en_iff.mp he
  exact granted_of_fits h (ok.room hv) hfits

/-! ## One cycle -/

theorem in_range_iff {idx n k : ℕ} : in_range idx n k = true ↔ idx ≤ k ∧ k < idx + n :=
  decide_eq_true_iff

/-- **The taken slots after a cycle**: those before without the freed ones, and the
granted ones. -/
theorem bitmap_d_iff (h : Inv p s) (ok : Safe p s i) (k : ℕ) : bitmap_d p s i k = true
    ↔ (s.bitmap_q k = true
        ∧ ¬ (i.free_valid_i = true ∧ in_range (pop_idx p i) (pop_size p i) k = true))
      ∨ (push_en p s i = true ∧ in_range (push_idx p s i) (push_size p i) k = true) := by
  have hpush : (push_en p s i && in_range (push_idx p s i) (push_size p i) k) = true →
      s.bitmap_q k = false := by
    rw [Bool.and_eq_true, in_range_iff]
    rintro ⟨he, h1, h2⟩
    exact (ok.granted h he).free k h1 h2
  have hpop : (pop_en i && in_range (pop_idx p i) (pop_size p i) k) = true →
      s.bitmap_q k = true := by
    rw [Bool.and_eq_true, in_range_iff]
    rintro ⟨hv, h1, h2⟩
    exact ok.free hv k h1 h2
  rw [← Bool.and_eq_true, ← Bool.and_eq_true]
  unfold bitmap_d
  have hpop_en : pop_en i = i.free_valid_i := rfl
  rw [hpop_en] at hpop ⊢
  -- a slot is granted only when free and freed only when taken, so never both
  generalize (push_en p s i && in_range (push_idx p s i) (push_size p i) k) = push at hpush ⊢
  generalize (i.free_valid_i && in_range (pop_idx p i) (pop_size p i) k) = pop at hpop ⊢
  generalize s.bitmap_q k = b at hpush hpop ⊢
  revert hpush hpop
  cases push <;> cases pop <;> cases b <;> simp

/-- The head stops at the first taken slot. -/
theorem head_ptr_incr_le {j : ℕ} (hj : j < p.NumSlots)
    (hb : s.bitmap_q ((s.head_ptr_q + j) % p.NumSlots) = true) : head_ptr_incr p s ≤ j := by
  have hb' : bitmap_shifted p s j = true := hb
  have hne : Lzc.empty_o p.NumSlots (bitmap_shifted p s) = false :=
    Lzc.not_empty_o_iff.mpr ⟨j, hj, hb'⟩
  obtain ⟨-, -, hlow⟩ := Lzc.cnt_o_spec hne
  rw [head_ptr_incr, hne, if_neg Bool.false_ne_true, Nat.add_zero]
  by_contra hlt
  rw [hlow j (by omega)] at hb'
  exact absurd hb' Bool.false_ne_true

/-- A slot at most one round ahead. -/
theorem add_mod_eq {N a j : ℕ} (ha : a < N) (hj : j < N) :
    (a + j) % N = if a + j < N then a + j else a + j - N := by
  split_ifs with hc
  · exact Nat.mod_eq_of_lt hc
  · rw [Nat.mod_eq_sub_mod (by omega), Nat.mod_eq_of_lt (by omega)]

/-- The way of the head in a cycle, from `head_q` to `head`, and a slot `k` it did not
pass. The head goes nowhere where the pointers are equal, and else at most to the tail. -/
def Passed (head_q head tail k : ℕ) : Prop :=
  (head_q = tail ∧ head = tail) ∨ (head_q < tail ∧ head ≤ k ∧ k < tail)
    ∨ (tail < head_q ∧ head_q ≤ head ∧ (head ≤ k ∨ k < tail))
    ∨ (tail < head_q ∧ head ≤ k ∧ k < tail)

/-- The head passes no taken slot. -/
theorem head_step (h : Inv p s) : ∃ head, (s.head_ptr_q + head_ptr_incr_real p s) % p.NumSlots = head
    ∧ head < p.NumSlots
    ∧ ((s.head_ptr_q = s.tail_ptr_q ∧ head = s.head_ptr_q)
      ∨ (s.head_ptr_q < s.tail_ptr_q ∧ s.head_ptr_q ≤ head ∧ head ≤ s.tail_ptr_q)
      ∨ (s.tail_ptr_q < s.head_ptr_q ∧ (s.head_ptr_q ≤ head ∨ head ≤ s.tail_ptr_q)))
    ∧ ∀ k, s.bitmap_q k = true → Passed s.head_ptr_q head s.tail_ptr_q k := by
  have hh := h.head_lt
  have ht := h.tail_lt
  have hle : head_ptr_incr_real p s ≤ head_ptr_incr_max p s
      ∧ head_ptr_incr_real p s ≤ head_ptr_incr p s := by
    unfold head_ptr_incr_real
    split_ifs <;> omega
  have hmax : head_ptr_incr_max p s = if s.head_ptr_q ≤ s.tail_ptr_q
      then s.tail_ptr_q - s.head_ptr_q else s.tail_ptr_q + p.NumSlots - s.head_ptr_q := rfl
  refine ⟨_, rfl, Nat.mod_lt _ (by omega), ?_⟩
  rcases Nat.lt_trichotomy s.head_ptr_q s.tail_ptr_q with hlt | heq | hgt
  · rw [if_pos hlt.le] at hmax
    rw [Nat.mod_eq_of_lt (by omega)]
    refine ⟨by omega, fun k hk => ?_⟩
    have hw : s.head_ptr_q ≤ k ∧ k < s.tail_ptr_q := by
      rcases h.window k hk with hc | hc | hc <;> omega
    have hpass : head_ptr_incr p s ≤ k - s.head_ptr_q := by
      apply head_ptr_incr_le (by omega)
      rw [Nat.add_sub_cancel' hw.1, Nat.mod_eq_of_lt (by omega)]
      exact hk
    unfold Passed
    omega
  · rw [if_pos heq.le] at hmax
    have hzero : head_ptr_incr_real p s = 0 := by omega
    rw [hzero, Nat.add_zero, Nat.mod_eq_of_lt hh]
    exact ⟨Or.inl ⟨heq, rfl⟩, fun k _ => Or.inl ⟨heq, heq⟩⟩
  · rw [if_neg (by omega)] at hmax
    have hwrap : (s.head_ptr_q + head_ptr_incr_real p s) % p.NumSlots
        = if s.head_ptr_q + head_ptr_incr_real p s < p.NumSlots
          then s.head_ptr_q + head_ptr_incr_real p s
          else s.head_ptr_q + head_ptr_incr_real p s - p.NumSlots :=
      add_mod_eq hh (by omega)
    rw [hwrap]
    refine ⟨?_, fun k hk => ?_⟩
    · split_ifs <;> omega
    · have hkN := h.bitmap_lt k hk
      rcases Nat.lt_or_ge k s.head_ptr_q with hkt | hkh
      · -- behind the wrap
        have hw : k < s.tail_ptr_q := by
          rcases h.window k hk with hc | hc | hc <;> omega
        have hpass : head_ptr_incr p s ≤ k + p.NumSlots - s.head_ptr_q := by
          apply head_ptr_incr_le (by omega)
          rw [Nat.add_sub_cancel' (by omega), Nat.add_mod_right, Nat.mod_eq_of_lt hkN]
          exact hk
        unfold Passed
        split_ifs <;> omega
      · have hpass : head_ptr_incr p s ≤ k - s.head_ptr_q := by
          apply head_ptr_incr_le (by omega)
          rw [Nat.add_sub_cancel' hkh, Nat.mod_eq_of_lt hkN]
          exact hk
        unfold Passed
        split_ifs <;> omega

/-- A slot taken after a cycle was taken before, or is granted in it. -/
theorem taken_of_step (h : Inv p s) (ok : Safe p s i) {k : ℕ}
    (hk : (step p s i).bitmap_q k = true) : s.bitmap_q k = true
      ∨ (push_en p s i = true ∧ push_idx p s i ≤ k ∧ k < push_idx p s i + push_size p i) := by
  rcases (bitmap_d_iff h ok k).mp hk with ⟨hb, -⟩ | ⟨he, hr⟩
  · exact Or.inl hb
  · exact Or.inr ⟨he, in_range_iff.mp hr⟩

/-- Where a granted request lies, and where it leaves the tail: behind the tail, at the
start of the buffer, or in front of the head. -/
theorem push_tail (h : Inv p s) (hr : Room p s i) (he : push_en p s i = true) : equal_full p s = false ∧ ∃ tail,
      (s.tail_ptr_q + padding p s i + push_size p i) % p.NumSlots = tail
      ∧ ((s.head_ptr_q ≤ s.tail_ptr_q ∧ push_idx p s i = s.tail_ptr_q
          ∧ ((tail = s.tail_ptr_q + push_size p i ∧ tail < p.NumSlots)
            ∨ (tail = 0 ∧ s.tail_ptr_q + push_size p i = p.NumSlots)))
        ∨ (s.head_ptr_q ≤ s.tail_ptr_q ∧ push_idx p s i = 0 ∧ tail = push_size p i
          ∧ tail ≤ s.head_ptr_q)
        ∨ (s.tail_ptr_q < s.head_ptr_q ∧ push_idx p s i = s.tail_ptr_q
          ∧ tail = s.tail_ptr_q + push_size p i ∧ tail ≤ s.head_ptr_q)) := by
  have hh := h.head_lt
  have ht := h.tail_lt
  have hpidx : push_idx p s i = (s.tail_ptr_q + padding p s i) % p.NumSlots := by
    rw [push_idx, two_pow_ptr_w]
  have hfits : (fit p s i).1 = true := by
    rw [push_en, Bool.and_eq_true] at he
    exact he.1
  rcases fit_room h hr with ⟨hfit, -⟩ | ⟨hf, hle, hend, hfit⟩ | ⟨hf, hle, hend, hn, hfit⟩
    | ⟨hf, hgt, hn, hfit⟩
  · rw [hfit] at hfits
    exact absurd hfits Bool.false_ne_true
  · rw [padding, hfit, Nat.add_zero] at hpidx ⊢
    rw [Nat.mod_eq_of_lt ht] at hpidx
    refine ⟨hf, _, rfl, Or.inl ⟨hle, hpidx, ?_⟩⟩
    -- the last slot may be the last of the buffer
    rcases Nat.lt_or_ge (s.tail_ptr_q + push_size p i) p.NumSlots with hlast | hlast
    · rw [Nat.mod_eq_of_lt hlast]
      exact Or.inl ⟨rfl, hlast⟩
    · have hN : s.tail_ptr_q + push_size p i = p.NumSlots := by omega
      rw [hN, Nat.mod_self]
      exact Or.inr ⟨rfl, rfl⟩
  · rw [padding, hfit, Nat.add_sub_cancel' (by omega)] at hpidx ⊢
    rw [Nat.mod_self] at hpidx
    rw [Nat.add_mod_left, Nat.mod_eq_of_lt (by omega)]
    exact ⟨hf, _, rfl, Or.inr (Or.inl ⟨hle, hpidx, rfl, hn⟩)⟩
  · rw [padding, hfit, Nat.add_zero] at hpidx ⊢
    rw [Nat.mod_eq_of_lt ht] at hpidx
    rw [Nat.mod_eq_of_lt (by omega)]
    exact ⟨hf, _, rfl, Or.inr (Or.inr ⟨hgt, hpidx, rfl, hn⟩)⟩

/-- Where nothing is taken both pointers go to 0. -/
theorem Inv.step_rewinds (h : Inv p s) (ok : Safe p s i) (hr : rewinds p s i = true) :
    Inv p (step p s i) := by
  have hh := h.head_lt
  have hnone : ∀ k, (ClusterRb.step p s i).bitmap_q k = true → False := by
    intro k hk
    rw [rewinds, Bool.and_eq_true, Bool.and_eq_true, Bool.not_eq_true', equal_empty,
      Bool.and_eq_true, Bool.not_eq_true', Bool.not_eq_true'] at hr
    rcases taken_of_step h ok hk with hb | ⟨he, -⟩
    · have := (any_taken_iff h).mpr ⟨k, hb⟩
      rw [hr.2.2] at this
      exact absurd this Bool.false_ne_true
    · rw [hr.1.1] at he
      exact absurd he Bool.false_ne_true
  have hhd : (ClusterRb.step p s i).head_ptr_q = 0 := if_pos hr
  have htl : (ClusterRb.step p s i).tail_ptr_q = 0 := if_pos hr
  refine ⟨?_, ?_, fun k hk => (hnone k hk).elim, fun k hk => (hnone k hk).elim⟩
  · rw [hhd]
    omega
  · rw [htl]
    omega

/-- The tail moves over the granted slots, and never over the head. -/
theorem Inv.step_push (h : Inv p s) (ok : Safe p s i) (hr : ¬ rewinds p s i = true)
    (he : push_en p s i = true) {head : ℕ} (hhd : (step p s i).head_ptr_q = head)
    (hlt : head < p.NumSlots)
    (hwin : ∀ k, s.bitmap_q k = true → Passed s.head_ptr_q head s.tail_ptr_q k)
    (hmove : (s.head_ptr_q = s.tail_ptr_q ∧ head = s.head_ptr_q)
      ∨ (s.head_ptr_q < s.tail_ptr_q ∧ s.head_ptr_q ≤ head ∧ head ≤ s.tail_ptr_q)
      ∨ (s.tail_ptr_q < s.head_ptr_q ∧ (s.head_ptr_q ≤ head ∨ head ≤ s.tail_ptr_q))) :
    Inv p (step p s i) := by
  have hroom := ok.room (push_en_iff.mp he).2
  have hg := ok.granted h he
  have htl : (ClusterRb.step p s i).tail_ptr_q
      = (s.tail_ptr_q + padding p s i + push_size p i) % p.NumSlots := by
    rw [← two_pow_ptr_w]
    exact (if_neg hr).trans (if_pos he)
  obtain ⟨hf, tail, htail, hplace⟩ := push_tail h hroom he
  rw [htail] at htl
  have htlt : tail < p.NumSlots := by
    rw [← htail]
    exact Nat.mod_lt _ (by omega)
  refine ⟨hhd ▸ hlt, htl ▸ htlt, ?_, ?_⟩
  · intro k hk
    rcases taken_of_step h ok hk with hb | ⟨-, h1, h2⟩
    · exact h.bitmap_lt k hb
    · have := hg.region
      omega
  · intro k hk
    rw [hhd, htl]
    unfold Window
    rcases taken_of_step h ok hk with hb | ⟨-, h1, h2⟩
    · -- the ring was not full, so with a slot taken the pointers were apart
      have hne : s.head_ptr_q ≠ s.tail_ptr_q := fun hc =>
        absurd hb (by simp [not_taken_of_not_full h hf hc k])
      have hpass := hwin k hb
      unfold Passed at hpass
      rcases hplace with hc | hc | hc <;> omega
    · rcases hplace with hc | hc | hc <;> omega

/-- Without a grant only the head moves. -/
theorem Inv.step_keep (h : Inv p s) (ok : Safe p s i) (hr : ¬ rewinds p s i = true)
    (he : ¬ push_en p s i = true) {head : ℕ} (hhd : (step p s i).head_ptr_q = head)
    (hlt : head < p.NumSlots)
    (hwin : ∀ k, s.bitmap_q k = true → Passed s.head_ptr_q head s.tail_ptr_q k) :
    Inv p (step p s i) := by
  have htl : (ClusterRb.step p s i).tail_ptr_q = s.tail_ptr_q :=
    (if_neg hr).trans (if_neg he)
  have hold : ∀ k, (ClusterRb.step p s i).bitmap_q k = true → s.bitmap_q k = true :=
    fun k hk => (taken_of_step h ok hk).resolve_right fun hc => he hc.1
  refine ⟨hhd ▸ hlt, htl ▸ h.tail_lt, fun k hk => h.bitmap_lt k (hold k hk), fun k hk => ?_⟩
  have hpass := hwin k (hold k hk)
  unfold Passed at hpass
  rw [hhd, htl, Window]
  omega

/-- **A cycle keeps the taken slots between head and tail.** -/
theorem Inv.step (h : Inv p s) (ok : Safe p s i) : Inv p (step p s i) := by
  obtain ⟨head, hhead, hlt, hmove, hwin⟩ := head_step h
  by_cases hr : rewinds p s i = true
  · exact h.step_rewinds ok hr
  · have hhd : (ClusterRb.step p s i).head_ptr_q = head := by
      rw [← hhead, ← two_pow_ptr_w]
      exact if_neg hr
    by_cases he : push_en p s i = true
    · exact h.step_push ok hr he hhd hlt hwin hmove
    · exact h.step_keep ok hr he hhd hlt hwin

theorem inv_reset (h : 0 < p.NumSlots) : Inv p reset :=
  ⟨h, h, fun _ hk => absurd hk Bool.false_ne_true, fun _ hk => absurd hk Bool.false_ne_true⟩

end Pspin.ClusterRb
