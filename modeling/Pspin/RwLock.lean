/-
`spin_rw_lock`: readers and writers on one word and one counter.

Every memory access of the lock is an atomic operation, so a run is an interleaving of
these operations, taken by the HPUs in any order. The first reader takes the global lock
for all of them and the last one gives it back; a reader that finds the counter positive
does not look at the lock.

That reader may find it positive while the first one still spins, and is then inside while
the readers do not hold the lock. This is harmless as long as no writer is inside at that
moment and none takes the lock before the first reader does. In the runs where neither
happens, and where the counter does not wrap, the lock has one owner at a time: one HPU or
the readers together.
-/
import Mathlib.Data.Finset.Card
import Mathlib.Data.Fintype.Basic
import Mathlib.Tactic.Ring
import Pspin.Config
import Pspin.Sync

set_option autoImplicit false

namespace Pspin.RwLock

/-- Where an HPU stands between two accesses. -/
inductive pc_t
  | Idle
  /-- `r_lock`, spinning on the global lock. -/
  | RLock
  /-- Past `r_lock` and before `r_unlock`. -/
  | Reading
  /-- `r_unlock`, about to store 0 to the global lock. -/
  | RUnlock
  /-- `w_lock`, spinning on the global lock. -/
  | WLock
  /-- Past `w_lock` and before `w_unlock`. -/
  | Writing
deriving DecidableEq, Repr

/-- The two words of the lock, shared by all HPUs, and where each HPU stands. -/
structure State (Hpu : Type) where
  glock : BitVec 32
  num_readers : BitVec 32
  pc : Hpu → pc_t

variable {Hpu : Type} [DecidableEq Hpu]

/-- Unlocked, and nobody inside. -/
def init : State Hpu := ⟨0, 0, fun _ => .Idle⟩

/-! ## Atomic operations: the old value, and the memory after -/

/-- `amo_add`: the old value comes back. The counter is a word of 32 bits and wraps. -/
def amo_add (addr val : BitVec 32) : BitVec 32 × BitVec 32 := (addr, addr + val)

/-- `amo_or`: the old value comes back, so who finds 0 has set the bit. -/
def amo_or (addr val : BitVec 32) : BitVec 32 × BitVec 32 := (addr, addr ||| val)

/-- `amo_store`: no value comes back. -/
def amo_store (val : BitVec 32) : BitVec 32 := val

/-! ## Steps

One step is one atomic operation. -/

/-- The memory operations of the four calls, each with the HPU that makes it. -/
inductive op_t (Hpu : Type)
  | r_lock_add (h : Hpu)
  | r_lock_or (h : Hpu)
  | r_unlock_add (h : Hpu)
  | r_unlock_store (h : Hpu)
  | w_lock_or (h : Hpu)
  | w_unlock_store (h : Hpu)
deriving DecidableEq

/-- HPU `h` moves on, all others stay where they are. -/
def State.goto (s : State Hpu) (h : Hpu) (c : pc_t) : State Hpu :=
  { s with pc := Function.update s.pc h c }

/-- An HPU takes the next operation of its call; each lock is paired with its unlock. -/
def enabled (s : State Hpu) : op_t Hpu → Prop
  | .r_lock_add h => s.pc h = .Idle
  | .r_lock_or h => s.pc h = .RLock
  | .r_unlock_add h => s.pc h = .Reading
  | .r_unlock_store h => s.pc h = .RUnlock
  | .w_lock_or h => s.pc h = .Idle ∨ s.pc h = .WLock
  | .w_unlock_store h => s.pc h = .Writing

instance (s : State Hpu) : (o : op_t Hpu) → Decidable (enabled s o)
  | .r_lock_add h => inferInstanceAs (Decidable (s.pc h = _))
  | .r_lock_or h => inferInstanceAs (Decidable (s.pc h = _))
  | .r_unlock_add h => inferInstanceAs (Decidable (s.pc h = _))
  | .r_unlock_store h => inferInstanceAs (Decidable (s.pc h = _))
  | .w_lock_or h => inferInstanceAs (Decidable (s.pc h = _ ∨ s.pc h = _))
  | .w_unlock_store h => inferInstanceAs (Decidable (s.pc h = _))

/-- `while (amo_or(futex, 1))`, one turn. -/
def futex_lock_s (s : State Hpu) (h : Hpu) (spinning locked : pc_t) : State Hpu :=
  let (old, glock) := amo_or s.glock 1
  { s with glock := glock }.goto h (if old = 0 then locked else spinning)

/-- `futex_unlock`: the caller does not check that the lock is its own. -/
def futex_unlock (s : State Hpu) (h : Hpu) : State Hpu :=
  { s with glock := amo_store 0 }.goto h .Idle

/-- `spin_rw_lock_r_lock`, up to its decision: who is not the first reader does not look at the
global lock at all. -/
def spin_rw_lock_r_lock (s : State Hpu) (h : Hpu) : State Hpu :=
  let (old, mem) := amo_add s.num_readers 1
  -- the first reader takes the global lock for all
  let num_readers := old + 1
  { s with num_readers := mem }.goto h (if num_readers = 1 then .RLock else .Reading)

/-- `spin_rw_lock_r_unlock`, up to its decision. -/
def spin_rw_lock_r_unlock (s : State Hpu) (h : Hpu) : State Hpu :=
  let (old, mem) := amo_add s.num_readers (-1)
  -- the last one gives it back
  let num_readers := old - 1
  { s with num_readers := mem }.goto h (if num_readers = 0 then .RUnlock else .Idle)

def step (s : State Hpu) : op_t Hpu → State Hpu
  | .r_lock_add h => spin_rw_lock_r_lock s h
  | .r_lock_or h => futex_lock_s s h .RLock .Reading
  | .r_unlock_add h => spin_rw_lock_r_unlock s h
  | .r_unlock_store h => futex_unlock s h
  | .w_lock_or h => futex_lock_s s h .WLock .Writing
  | .w_unlock_store h => futex_unlock s h

/-- The states of all runs: any HPU may take its next operation at any time. -/
def Reach : State Hpu → Prop := Sync.Reach (· = init) step enabled

/-! ## Exclusion -/

/-- No reader beside a writer, no two writers. -/
structure Exclusive (s : State Hpu) : Prop where
  reader : ∀ r w, s.pc r = .Reading → s.pc w ≠ .Writing
  writer : ∀ w w', s.pc w = .Writing → s.pc w' = .Writing → w = w'

/-- The HPUs that the counter counts. -/
def counted (c : pc_t) : Bool := c == .RLock || c == .Reading

/-- Who is counted and does not spin is inside. -/
theorem reading_of_counted {c : pc_t} (hc : counted c = true) (hne : c ≠ .RLock) :
    c = .Reading := by
  rw [counted, Bool.or_eq_true, beq_iff_eq, beq_iff_eq] at hc
  exact hc.resolve_left hne

/-- When a reader increments the counter and others are counted, then the counter shows them,
and if one of them still spins on the global lock, then no writer is inside. When a writer
finds the lock free and a reader still spins on it, then no other reader has overtaken that
one. -/
def covered (s : State Hpu) : op_t Hpu → Prop
  | .r_lock_add _ => ∀ k, counted (s.pc k) = true →
      s.num_readers ≠ 0 ∧ (s.pc k = .RLock → ∀ w, s.pc w ≠ .Writing)
  | .w_lock_or _ => s.glock = 0 → ∀ r k, s.pc r = .RLock → s.pc k ≠ .Reading
  | _ => True

/-- The runs whose steps are all covered. -/
def CoveredReach : State Hpu → Prop :=
  Sync.Reach (· = init) step fun s o => enabled s o ∧ covered s o

/-! ## Who owns the global lock -/

/-- Whose lock it is. The readers own it together, and the last of them gives it back. -/
inductive owner_t (Hpu : Type)
  | nobody
  | readers
  | hpu (h : Hpu)

section Count

variable [Fintype Hpu]

/-- The set that the counter counts. -/
def counted_hpus (pc : Hpu → pc_t) : Finset Hpu :=
  Finset.univ.filter fun h => counted (pc h) = true

variable {pc : Hpu → pc_t} {h : Hpu} {c : pc_t}

omit [DecidableEq Hpu] in
theorem mem_counted : h ∈ counted_hpus pc ↔ counted (pc h) = true := by
  rw [counted_hpus, Finset.mem_filter]
  exact and_iff_right (Finset.mem_univ h)

/-- An increment adds its HPU to the set. -/
theorem counted_enter (h : Hpu) (hc : counted c = true) :
    counted_hpus (Function.update pc h c) = insert h (counted_hpus pc) := by
  ext k
  rw [Finset.mem_insert, mem_counted, mem_counted]
  by_cases hk : k = h
  · rw [hk, Function.update_self]
    exact iff_of_true hc (Or.inl rfl)
  · rw [Function.update_of_ne hk]
    exact (or_iff_right hk).symm

theorem counted_leave (h : Hpu) (hc : counted c = false) :
    counted_hpus (Function.update pc h c) = (counted_hpus pc).erase h := by
  ext k
  rw [Finset.mem_erase, mem_counted, mem_counted]
  by_cases hk : k = h
  · rw [hk, Function.update_self, hc]
    exact iff_of_false Bool.false_ne_true fun hn => hn.1 rfl
  · rw [Function.update_of_ne hk]
    exact (and_iff_right hk).symm

/-- A step that neither enters nor leaves. -/
theorem counted_stay (h : Hpu) (hc : counted c = counted (pc h)) :
    counted_hpus (Function.update pc h c) = counted_hpus pc := by
  ext k
  rw [mem_counted, mem_counted]
  by_cases hk : k = h
  · rw [hk, Function.update_self, hc]
  · rw [Function.update_of_ne hk]

end Count

/-! ## The invariant of the covered runs -/

/-- `o` owns the global lock. -/
structure Owned (s : State Hpu) (o : owner_t Hpu) : Prop where
  glock : s.glock = 0 ↔ o = .nobody
  hpu : ∀ h, s.pc h = .Writing ∨ s.pc h = .RUnlock ↔ o = .hpu h
  /-- The readers own the lock from when the first of them has it. -/
  readers : (∃ h, s.pc h = .Reading) ∧ (∀ h, s.pc h ≠ .RLock) ↔ o = .readers
  /-- A reader inside, which may have overtaken the first one, is not beside a writer. -/
  apart : (∃ h, s.pc h = .Reading) → ∀ w, s.pc w ≠ .Writing
  /-- Only the first reader spins. -/
  alone : ∀ h k, s.pc h = .RLock → s.pc k = .RLock → k = h

/-- The counter, modulo its width. -/
structure Counts [Fintype Hpu] (s : State Hpu) : Prop where
  num_readers : s.num_readers = BitVec.ofNat 32 (counted_hpus s.pc).card
  bound : (counted_hpus s.pc).card ≤ 2 ^ 32

variable {s : State Hpu} {o : owner_t Hpu} {h : Hpu}

/-! ### The operations, as a new state -/

/-- A turn of the spinning loop, as a state. -/
theorem futex_lock_s_eq (spinning locked : pc_t) : futex_lock_s s h spinning locked
    = ⟨s.glock ||| 1, s.num_readers,
      Function.update s.pc h (if s.glock = 0 then locked else spinning)⟩ := rfl

theorem r_lock_eq : spin_rw_lock_r_lock s h
    = ⟨s.glock, s.num_readers + 1,
      Function.update s.pc h (if s.num_readers + 1 = 1 then .RLock else .Reading)⟩ := rfl

theorem r_unlock_eq : spin_rw_lock_r_unlock s h
    = ⟨s.glock, s.num_readers + (-1),
      Function.update s.pc h (if s.num_readers - 1 = 0 then .RUnlock else .Idle)⟩ := rfl

namespace Owned

omit [DecidableEq Hpu] in
/-- A writer inside owns the lock, so there is one of them, and no reader is beside it. -/
theorem exclusive (ho : Owned s o) : Exclusive s where
  reader := fun r w hr => ho.apart ⟨r, hr⟩ w
  writer := by
    intro w w' hw hw'
    have hone := (ho.hpu w).mp (Or.inl hw)
    have htwo := (ho.hpu w').mp (Or.inl hw')
    exact owner_t.hpu.inj (hone.symm.trans htwo)

/-! ### One HPU moves -/

/-- One HPU moves, and the lock passes from `o` to `o'`. -/
theorem goto (ho : Owned s o) {c : pc_t} {o' : owner_t Hpu} {g n : BitVec 32}
    (hglock : g = 0 ↔ o' = .nobody)
    (hself : c = .Writing ∨ c = .RUnlock ↔ o' = .hpu h)
    (hothers : ∀ k ≠ h, o = .hpu k ↔ o' = .hpu k)
    (hreaders : (c = .Reading ∨ ∃ k ≠ h, s.pc k = .Reading) ∧ c ≠ .RLock ∧ (∀ k ≠ h, s.pc k ≠ .RLock)
      ↔ o' = .readers)
    (hapart : (c = .Reading ∨ ∃ k ≠ h, s.pc k = .Reading) →
      c ≠ .Writing ∧ ∀ k ≠ h, s.pc k ≠ .Writing)
    (halone : c = .RLock → ∀ k ≠ h, s.pc k ≠ .RLock) :
    Owned ⟨g, n, Function.update s.pc h c⟩ o' where
  glock := hglock
  hpu := by
    intro k
    show Function.update s.pc h c k = _ ∨ Function.update s.pc h c k = _ ↔ _
    -- the HPU that moves is given by `hself`, the others keep their program counter
    by_cases hk : k = h
    · rw [hk, Function.update_self]
      exact hself
    · rw [Function.update_of_ne hk]
      exact (ho.hpu k).trans (hothers k hk)
  readers := by
    rw [← hreaders]
    exact and_congr (Function.exists_update_iff s.pc fun _ pc => pc = .Reading)
      (Function.forall_update_iff s.pc fun _ pc => pc ≠ .RLock)
  apart := by
    intro hreading
    have hmoved := (Function.exists_update_iff s.pc fun _ pc => pc = .Reading).mp hreading
    exact (Function.forall_update_iff s.pc fun _ pc => pc ≠ .Writing).mpr (hapart hmoved)
  alone := by
    show ∀ j k, Function.update s.pc h c j = _ → Function.update s.pc h c k = _ → k = j
    intro j k hj hk
    -- one of the two may be the HPU that moved
    by_cases hjh : j = h <;> by_cases hkh : k = h
    · rw [hjh, hkh]
    · rw [hjh, Function.update_self] at hj
      rw [Function.update_of_ne hkh] at hk
      exact absurd hk (halone hj k hkh)
    · rw [Function.update_of_ne hjh] at hj
      rw [hkh, Function.update_self] at hk
      exact absurd hj (halone hk j hjh)
    · rw [Function.update_of_ne hjh] at hj
      rw [Function.update_of_ne hkh] at hk
      exact ho.alone j k hj hk

/-! ### What the invariant says of one HPU and the others -/

omit [DecidableEq Hpu] in
/-- Who is neither a writer inside nor about to unlock owns nothing alone. -/
theorem ne_hpu (ho : Owned s o) (hw : s.pc h ≠ .Writing) (hu : s.pc h ≠ .RUnlock) :
    o ≠ .hpu h := by
  intro hc
  rcases (ho.hpu h).mpr hc with hpc | hpc
  · exact hw hpc
  · exact hu hpc

omit [DecidableEq Hpu] in
/-- Whether the readers own the lock can be seen from the HPUs other than one that is no
reader. -/
theorem readers_others (ho : Owned s o) (hr : s.pc h ≠ .Reading) (hl : s.pc h ≠ .RLock) :
    (∃ k ≠ h, s.pc k = .Reading) ∧ (∀ k ≠ h, s.pc k ≠ .RLock) ↔ o = .readers := by
  rw [← ho.readers]
  constructor
  · rintro ⟨⟨k, -, hk⟩, hnone⟩
    refine ⟨⟨k, hk⟩, fun j hj => ?_⟩
    exact hnone j (fun hjh => hl (hjh ▸ hj)) hj
  · rintro ⟨⟨k, hk⟩, hnone⟩
    exact ⟨⟨k, fun hkh => hr (hkh ▸ hk), hk⟩, fun j _ => hnone j⟩

omit [DecidableEq Hpu] in
/-- While readers are inside, no other HPU writes. -/
theorem apart_others (ho : Owned s o) (hreading : ∃ k ≠ h, s.pc k = .Reading) :
    ∀ k ≠ h, s.pc k ≠ .Writing := by
  obtain ⟨r, -, hr⟩ := hreading
  exact fun k _ => ho.apart ⟨r, hr⟩ k

omit [DecidableEq Hpu] in
/-- No other HPU spins while one does. -/
theorem no_other_spins (ho : Owned s o) (hspin : s.pc h = .RLock) : ∀ k ≠ h, s.pc k ≠ .RLock :=
  fun k hk hc => hk (ho.alone h k hspin hc)

omit [DecidableEq Hpu] in
/-- On a free lock a reader inside has overtaken the first one, which still spins. -/
theorem spins_of_free (ho : Owned s .nobody) (hr : s.pc h = .Reading) : ∃ k, s.pc k = .RLock := by
  by_contra hnone
  have howner := ho.readers.mp ⟨⟨h, hr⟩, fun k hk => hnone ⟨k, hk⟩⟩
  cases howner

/-! ### The global lock -/

/-- After the `or` the lock is taken, whoever took it. -/
theorem or_one_ne_zero (g : BitVec 32) : g ||| 1 ≠ 0 := by
  intro hc
  have hbit := congrArg (fun w => w.getLsbD 0) hc
  simp at hbit

omit [DecidableEq Hpu] in
/-- An `or` on a lock that is taken changes no owner. -/
theorem locked (ho : Owned s o) (hg : s.glock ≠ 0) : s.glock ||| 1 = 0 ↔ o = .nobody :=
  iff_of_false (or_one_ne_zero _) fun hc => hg (ho.glock.mpr hc)

/-- A turn of the first reader: it takes the lock for all readers, or finds it taken. -/
theorem r_lock_or (ho : Owned s o) (hpc : s.pc h = .RLock) :
    ∃ o', Owned (futex_lock_s s h .RLock .Reading) o' := by
  have hothers := ho.no_other_spins hpc
  -- the first reader takes the lock for all of them, or goes on spinning
  by_cases hg : s.glock = 0
  · have hnobody := ho.glock.mp hg
    refine ⟨.readers, ?_⟩
    rw [futex_lock_s_eq, if_pos hg]
    apply ho.goto
    · exact iff_of_false (or_one_ne_zero _) nofun
    · exact iff_of_false (by decide) nofun
    · intro k _
      rw [hnobody]
      exact iff_of_false nofun nofun
    · exact iff_of_true ⟨Or.inl rfl, nofun, hothers⟩ rfl
    · -- a writer inside would own the lock
      refine fun _ => ⟨nofun, fun k _ hk => ?_⟩
      have howner := (ho.hpu k).mp (Or.inl hk)
      cases hnobody.symm.trans howner
    · exact nofun
  · refine ⟨o, ?_⟩
    rw [futex_lock_s_eq, if_neg hg]
    apply ho.goto
    · exact ho.locked hg
    · exact iff_of_false (by decide) (ho.ne_hpu (by rw [hpc]; decide) (by rw [hpc]; decide))
    · exact fun _ _ => Iff.rfl
    · exact iff_of_false (fun hc => hc.2.1 rfl) fun hc => (ho.readers.mpr hc).2 h hpc
    · exact fun hc => ⟨nofun, ho.apart_others (hc.resolve_left nofun)⟩
    · exact fun _ => hothers

/-- A turn of a writer: it takes the lock for itself, or finds it taken. The condition on the step
says that on a free lock no reader is inside. -/
theorem w_lock_or (ho : Owned s o) (hpc : s.pc h = .Idle ∨ s.pc h = .WLock)
    (hcov : covered s (.w_lock_or h)) : ∃ o', Owned (futex_lock_s s h .WLock .Writing) o' := by
  have hnot : s.pc h ≠ .Writing ∧ s.pc h ≠ .RUnlock ∧ s.pc h ≠ .Reading ∧ s.pc h ≠ .RLock := by
    rcases hpc with hpc | hpc <;> rw [hpc] <;> decide
  obtain ⟨hwriting, hunlock, hreading, hspins⟩ := hnot
  -- the `or` sets the bit in any case; who found it clear has the lock
  by_cases hg : s.glock = 0
  · obtain rfl := ho.glock.mp hg
    have hnone : ¬ (pc_t.Writing = .Reading ∨ ∃ k ≠ h, s.pc k = .Reading) := by
      rintro (hc | ⟨k, -, hk⟩)
      · cases hc
      · obtain ⟨r, hr⟩ := ho.spins_of_free hk
        exact hcov hg r k hr hk
    refine ⟨.hpu h, ?_⟩
    rw [futex_lock_s_eq, if_pos hg]
    apply ho.goto
    · exact iff_of_false (or_one_ne_zero _) nofun
    · exact iff_of_true (Or.inl rfl) rfl
    · intro k hk
      exact iff_of_false nofun fun hc => hk (owner_t.hpu.inj hc).symm
    · exact iff_of_false (fun hc => hnone hc.1) nofun
    · exact fun hc => absurd hc hnone
    · exact nofun
  · refine ⟨o, ?_⟩
    rw [futex_lock_s_eq, if_neg hg]
    apply ho.goto
    · exact ho.locked hg
    · exact iff_of_false (by decide) (ho.ne_hpu hwriting hunlock)
    · exact fun _ _ => Iff.rfl
    · rw [← ho.readers_others hreading hspins]
      exact and_congr (or_iff_right nofun) (and_iff_right nofun)
    · exact fun hc => ⟨nofun, ho.apart_others (hc.resolve_left nofun)⟩
    · exact nofun

/-- The owner gives the lock back. -/
theorem unlock (ho : Owned s o) (hpc : s.pc h = .Writing ∨ s.pc h = .RUnlock) :
    Owned (futex_unlock s h) .nobody := by
  have howner := (ho.hpu h).mp hpc
  have hnot : s.pc h ≠ .Reading ∧ s.pc h ≠ .RLock := by
    rcases hpc with hpc | hpc <;> rw [hpc] <;> decide
  apply ho.goto
  · exact iff_of_true rfl rfl
  · exact iff_of_false (by decide) nofun
  · intro k hk
    rw [howner]
    exact iff_of_false (fun hc => hk (owner_t.hpu.inj hc).symm) nofun
  · -- the readers do not own the lock now, so those inside have overtaken one that spins
    refine iff_of_false ?_ nofun
    rintro ⟨hreading, -, hnone⟩
    have hreaders := (ho.readers_others hnot.1 hnot.2).mp ⟨hreading.resolve_left nofun, hnone⟩
    cases howner.symm.trans hreaders
  · exact fun hc => ⟨nofun, ho.apart_others (hc.resolve_left nofun)⟩
  · exact nofun

/-! ### The counter -/

/-- A reader enters. If it is the first, nobody else is counted; if not, the condition on the step
says that the readers own the lock already or that no writer is inside. -/
theorem r_lock_add (ho : Owned s o) (hpc : s.pc h = .Idle)
    (hc : covered s (.r_lock_add h)) (hzero : s.num_readers ≠ 0 → ∃ k, counted (s.pc k) = true) :
    Owned (spin_rw_lock_r_lock s h) o := by
  have hhpu : o ≠ .hpu h := ho.ne_hpu (by rw [hpc]; decide) (by rw [hpc]; decide)
  rw [r_lock_eq]
  by_cases hfirst : s.num_readers = 0
  · -- the first reader: nobody else is counted
    have hnone : ∀ k, counted (s.pc k) ≠ true := fun k hk => (hc k hk).1 hfirst
    have hreading : ¬ ∃ k, s.pc k = .Reading := by
      rintro ⟨k, hk⟩
      exact hnone k (hk ▸ rfl)
    rw [hfirst, if_pos (by decide)]
    apply ho.goto
    · exact ho.glock
    · exact iff_of_false (by decide) hhpu
    · exact fun _ _ => Iff.rfl
    · exact iff_of_false (fun hspin => hspin.2.1 rfl) fun howner =>
        hreading (ho.readers.mpr howner).1
    · rintro (hself | ⟨k, -, hk⟩)
      · cases hself
      · exact absurd ⟨k, hk⟩ hreading
    · exact fun _ k _ hk => hnone k (hk ▸ rfl)
  · -- a later reader: the others hold the lock, or it overtakes the one that spins
    obtain ⟨k, hk⟩ := hzero hfirst
    have hne : ¬ s.num_readers + 1 = 1 := fun hsum => hfirst (by bv_omega)
    have hwriters : ∀ w, s.pc w ≠ .Writing := by
      by_cases hspin : s.pc k = .RLock
      · exact (hc k hk).2 hspin
      · exact ho.apart ⟨k, reading_of_counted hk hspin⟩
    rw [if_neg hne]
    apply ho.goto
    · exact ho.glock
    · exact iff_of_false (by decide) hhpu
    · exact fun _ _ => Iff.rfl
    · rw [← ho.readers]
      constructor
      · rintro ⟨-, -, hnone⟩
        have hall : ∀ j, s.pc j ≠ .RLock := by
          intro j hj
          exact hnone j (fun hjh => by rw [hjh, hpc] at hj; cases hj) hj
        exact ⟨⟨k, reading_of_counted hk (hall k)⟩, hall⟩
      · rintro ⟨-, hnone⟩
        exact ⟨Or.inl rfl, nofun, fun j _ => hnone j⟩
    · exact fun _ => ⟨nofun, fun w _ => hwriters w⟩
    · exact nofun

/-- A reader leaves. The last one owns the lock alone until its store, so a new first reader spins
meanwhile. -/
theorem r_unlock_add (ho : Owned s o) (hpc : s.pc h = .Reading)
    (hlast : s.num_readers = 1 ↔ ∀ k ≠ h, counted (s.pc k) = false) :
    ∃ o', Owned (spin_rw_lock_r_unlock s h) o' := by
  have hspins : s.pc h ≠ .RLock := by
    rw [hpc]
    decide
  rw [r_unlock_eq]
  by_cases hone : s.num_readers = 1
  · -- the last reader keeps the lock for itself
    have hnone := hlast.mp hone
    have hothers : ∀ k ≠ h, s.pc k ≠ .Reading ∧ s.pc k ≠ .RLock := by
      intro k hk
      have hfalse := hnone k hk
      constructor <;> intro hc <;> rw [hc] at hfalse <;> cases hfalse
    have hall : ∀ k, s.pc k ≠ .RLock := fun k hk =>
      (hothers k fun hkh => hspins (hkh ▸ hk)).2 hk
    have howner := ho.readers.mp ⟨⟨h, hpc⟩, hall⟩
    have hleft : ¬ (pc_t.RUnlock = .Reading ∨ ∃ k ≠ h, s.pc k = .Reading) := by
      rintro (hc | ⟨k, hk, hreading⟩)
      · cases hc
      · exact (hothers k hk).1 hreading
    refine ⟨.hpu h, ?_⟩
    rw [hone, if_pos (by decide)]
    apply ho.goto
    · rw [ho.glock, howner]
      exact iff_of_false nofun nofun
    · exact iff_of_true (Or.inr rfl) rfl
    · intro k hk
      rw [howner]
      exact iff_of_false nofun fun hc => hk (owner_t.hpu.inj hc).symm
    · exact iff_of_false (fun hc => hleft hc.1) nofun
    · exact fun hc => absurd hc hleft
    · exact nofun
  · -- others go on reading, or the one that spins is still counted
    have hsome : ∃ k ≠ h, counted (s.pc k) = true := by
      by_contra hnot
      apply hone
      rw [hlast]
      exact fun k hk => Bool.eq_false_of_not_eq_true fun hc => hnot ⟨k, hk, hc⟩
    obtain ⟨k, hk, hck⟩ := hsome
    have hne : ¬ s.num_readers - 1 = 0 := fun hdiff => hone (by bv_omega)
    refine ⟨o, ?_⟩
    rw [if_neg hne]
    apply ho.goto
    · exact ho.glock
    · exact iff_of_false (by decide) (ho.ne_hpu (by rw [hpc]; decide) (by rw [hpc]; decide))
    · exact fun _ _ => Iff.rfl
    · rw [← ho.readers]
      constructor
      · rintro ⟨-, -, hnone⟩
        exact ⟨⟨h, hpc⟩, fun j hj => hnone j (fun hjh => hspins (hjh ▸ hj)) hj⟩
      · rintro ⟨-, hnone⟩
        exact ⟨Or.inr ⟨k, hk, reading_of_counted hck (hnone k)⟩, nofun, fun j _ => hnone j⟩
    · exact fun hc => ⟨nofun, ho.apart_others (hc.resolve_left nofun)⟩
    · exact nofun

end Owned

/-! ## The counter counts -/

namespace Counts

variable [Fintype Hpu]

omit [DecidableEq Hpu] in
theorem toNat_eq (hc : Counts s) : s.num_readers.toNat = (counted_hpus s.pc).card % 2 ^ 32 := by
  rw [hc.num_readers, BitVec.toNat_ofNat]

omit [DecidableEq Hpu] in
/-- A counter that is not 0 counts somebody. -/
theorem nonempty (hc : Counts s) (hne : s.num_readers ≠ 0) : ∃ k, counted (s.pc k) = true := by
  have hcard : (counted_hpus s.pc).card ≠ 0 := fun hzero => hne (by rw [hc.num_readers, hzero]; rfl)
  obtain ⟨k, hk⟩ := Finset.card_pos.mp (Nat.pos_of_ne_zero hcard)
  exact ⟨k, mem_counted.mp hk⟩

omit [DecidableEq Hpu] in
/-- A covered increment has room in the counter. -/
theorem card_lt (hc : Counts s) (hcov : covered s (.r_lock_add h)) :
    (counted_hpus s.pc).card < 2 ^ 32 := by
  refine lt_of_le_of_ne hc.bound fun hfull => ?_
  have hpos : 0 < (counted_hpus s.pc).card := hfull ▸ (by decide : 0 < 2 ^ 32)
  obtain ⟨k, hk⟩ := Finset.card_pos.mp hpos
  apply (hcov k (mem_counted.mp hk)).1
  rw [hc.num_readers, hfull]
  rfl

/-- A reader that finds 1 is the last one. The bound is needed here: with 2^32 + 1 readers the
counter would show 1 too. -/
theorem last_iff (hc : Counts s) (hpc : counted (s.pc h) = true) :
    s.num_readers = 1 ↔ ∀ k ≠ h, counted (s.pc k) = false := by
  have hmem := mem_counted.mpr hpc
  have hpos := Finset.card_pos.mpr ⟨h, hmem⟩
  have hbound := hc.bound
  -- the counter holds the number modulo 2^32, and there are fewer HPUs than that
  have hone : s.num_readers = 1 ↔ (counted_hpus s.pc).card = 1 := by
    rw [← BitVec.toNat_inj, hc.toNat_eq]
    show _ % 2 ^ 32 = 1 ↔ _
    omega
  rw [hone, Finset.card_eq_one]
  constructor
  · rintro ⟨j, hj⟩ k hk
    rw [hj, Finset.mem_singleton] at hmem
    apply Bool.eq_false_of_not_eq_true
    intro hck
    have hkj := mem_counted.mpr hck
    rw [hj, Finset.mem_singleton] at hkj
    exact hk (hkj.trans hmem.symm)
  · intro hnone
    refine ⟨h, Finset.eq_singleton_iff_unique_mem.mpr ⟨hmem, fun k hk => ?_⟩⟩
    by_contra hne
    exact absurd (mem_counted.mp hk) (Bool.eq_false_iff.mp (hnone k hne))

theorem enter (hc : Counts s) (hpc : counted (s.pc h) = false)
    (hlt : (counted_hpus s.pc).card < 2 ^ 32) {c : pc_t} (hin : counted c = true) {g : BitVec 32} :
    Counts ⟨g, s.num_readers + 1, Function.update s.pc h c⟩ := by
  have hnot : h ∉ counted_hpus s.pc := fun hmem =>
    absurd (mem_counted.mp hmem) (Bool.eq_false_iff.mp hpc)
  have hcard : (counted_hpus (Function.update s.pc h c)).card = (counted_hpus s.pc).card + 1 := by
    rw [counted_enter h hin, Finset.card_insert_of_notMem hnot]
  constructor
  · show _ = BitVec.ofNat 32 (counted_hpus (Function.update s.pc h c)).card
    rw [hcard, hc.num_readers, BitVec.ofNat_add]
    rfl
  · show (counted_hpus (Function.update s.pc h c)).card ≤ _
    rw [hcard]
    exact hlt

theorem leave (hc : Counts s) (hpc : counted (s.pc h) = true) {c : pc_t} (hout : counted c = false)
    {g : BitVec 32} : Counts ⟨g, s.num_readers + (-1), Function.update s.pc h c⟩ := by
  have hmem := mem_counted.mpr hpc
  have hpos := Finset.card_pos.mpr ⟨h, hmem⟩
  have hcard : (counted_hpus (Function.update s.pc h c)).card + 1 = (counted_hpus s.pc).card := by
    rw [counted_leave h hout, Finset.card_erase_of_mem hmem]
    omega
  constructor
  · show _ = BitVec.ofNat 32 (counted_hpus (Function.update s.pc h c)).card
    rw [hc.num_readers, ← hcard, BitVec.ofNat_add, BitVec.add_assoc]
    exact BitVec.add_zero _
  · show (counted_hpus (Function.update s.pc h c)).card ≤ _
    have hbound := hc.bound
    omega

/-- A step that neither enters nor leaves keeps the count. -/
theorem stay (hc : Counts s) {c : pc_t} (hsame : counted c = counted (s.pc h)) {g : BitVec 32} :
    Counts ⟨g, s.num_readers, Function.update s.pc h c⟩ := by
  have hcard := congrArg Finset.card (counted_stay h hsame)
  constructor
  · show _ = BitVec.ofNat 32 (counted_hpus (Function.update s.pc h c)).card
    rw [hcard]
    exact hc.num_readers
  · show (counted_hpus (Function.update s.pc h c)).card ≤ _
    rw [hcard]
    exact hc.bound

/-- Every covered operation keeps the count. -/
theorem step (hc : Counts s) {o : op_t Hpu} (he : enabled s o) (hcov : covered s o) :
    Counts (RwLock.step s o) := by
  cases o with
  | r_lock_add h =>
    have hpc : s.pc h = .Idle := he
    -- the add counts the reader at once, whatever value it returns
    rw [RwLock.step, r_lock_eq]
    apply hc.enter
    · rw [hpc]
      rfl
    · exact hc.card_lt hcov
    · split_ifs <;> rfl
  | r_lock_or h =>
    have hpc : s.pc h = .RLock := he
    rw [RwLock.step, futex_lock_s_eq]
    apply hc.stay
    rw [hpc]
    split_ifs <;> rfl
  | r_unlock_add h =>
    have hpc : s.pc h = .Reading := he
    rw [RwLock.step, r_unlock_eq]
    apply hc.leave
    · rw [hpc]
      rfl
    · split_ifs <;> rfl
  | r_unlock_store h =>
    have hpc : s.pc h = .RUnlock := he
    apply hc.stay
    rw [hpc]
    rfl
  | w_lock_or h =>
    have hpc : counted (s.pc h) = false := by
      rcases (he : _ ∨ _) with hpc | hpc <;> rw [hpc] <;> rfl
    -- a writer is never counted: it takes the global lock alone
    rw [RwLock.step, futex_lock_s_eq]
    apply hc.stay
    rw [hpc]
    split_ifs <;> rfl
  | w_unlock_store h =>
    have hpc : s.pc h = .Writing := he
    apply hc.stay
    rw [hpc]
    rfl

end Counts

/-! ## Whole runs -/

/-- **A covered step.** -/
theorem Owned.step [Fintype Hpu] (ho : Owned s o) (hc : Counts s) {op : op_t Hpu}
    (he : enabled s op) (hcov : covered s op) : ∃ o', Owned (RwLock.step s op) o' := by
  cases op with
  | r_lock_add h => exact ⟨o, ho.r_lock_add he hcov hc.nonempty⟩
  | r_lock_or h => exact ho.r_lock_or he
  | r_unlock_add h =>
    have hpc : s.pc h = .Reading := he
    exact ho.r_unlock_add hpc (hc.last_iff (hpc ▸ rfl))
  | r_unlock_store h => exact ⟨_, ho.unlock (Or.inr he)⟩
  | w_lock_or h => exact ho.w_lock_or he hcov
  | w_unlock_store h => exact ⟨_, ho.unlock (Or.inl he)⟩

omit [DecidableEq Hpu] in
theorem owned_init : Owned (init : State Hpu) .nobody where
  glock := iff_of_true rfl rfl
  hpu := fun _ => iff_of_false (by rintro (hc | hc) <;> cases hc) nofun
  readers := iff_of_false (by rintro ⟨⟨_, hc⟩, -⟩; cases hc) nofun
  apart := by
    rintro ⟨_, hc⟩
    cases hc
  alone := nofun

omit [DecidableEq Hpu] in
theorem counts_init [Fintype Hpu] : Counts (init : State Hpu) := by
  have hnone : counted_hpus (init : State Hpu).pc = ∅ :=
    Finset.filter_eq_empty_iff.mpr fun _ _ => Bool.false_ne_true
  constructor
  · rw [hnone]
    rfl
  · rw [hnone, Finset.card_empty]
    exact Nat.zero_le _

/-- The invariant of the covered runs. -/
theorem CoveredReach.owned [Fintype Hpu] (h : CoveredReach s) : Counts s ∧ ∃ o, Owned s o := by
  refine Sync.Reach.inv (P := fun s => Counts s ∧ ∃ o, Owned s o) ?_ ?_ h
  · rintro _ rfl
    exact ⟨counts_init, _, owned_init⟩
  · rintro s op ⟨hc, o, ho⟩ ⟨he, hcov⟩
    exact ⟨hc.step he hcov, ho.step hc he hcov⟩

/-- **Mutual exclusion.** In every run whose steps are all covered, no reader is past
`r_lock` beside a writer past `w_lock`, and no two writers are. -/
theorem rw_lock_exclusive [Fintype Hpu] (h : CoveredReach s) : Exclusive s := by
  obtain ⟨-, o, ho⟩ := h.owned
  exact ho.exclusive

/-! ## The condition is exact -/

omit [DecidableEq Hpu] in
/-- While the counter has room it shows those that it counts. -/
theorem Counts.ne_zero [Fintype Hpu] (hc : Counts s) (hroom : (counted_hpus s.pc).card < 2 ^ 32)
    (hpc : counted (s.pc h) = true) : s.num_readers ≠ 0 := by
  have hpos := Finset.card_pos.mpr ⟨h, mem_counted.mpr hpc⟩
  intro hzero
  have htoNat := hc.toNat_eq
  rw [hzero, Nat.mod_eq_of_lt hroom] at htoNat
  exact absurd htoNat (Nat.ne_of_lt hpos)

/-- A reader that enters beside one that spins and a writer inside is inside with it. -/
theorem covered_of_r_lock_add [Fintype Hpu] (hc : Counts s)
    (hroom : (counted_hpus s.pc).card < 2 ^ 32) (he : enabled s (.r_lock_add h))
    (hex : Exclusive (step s (.r_lock_add h))) : covered s (.r_lock_add h) := by
  intro k hk
  have hne := hc.ne_zero hroom hk
  refine ⟨hne, fun _ w hw => ?_⟩
  have hidle : s.pc h = .Idle := he
  have hwh : w ≠ h := fun hwh => by rw [hwh, hidle] at hw; cases hw
  have hlater : ¬ s.num_readers + 1 = 1 := fun hsum => hne (by bv_omega)
  rw [step, r_lock_eq, if_neg hlater] at hex
  apply hex.reader h w
  · exact Function.update_self ..
  · exact (Function.update_of_ne hwh ..).trans hw

/-- A writer that takes the lock while a reader has overtaken the first one is inside with it. -/
theorem covered_of_w_lock_or (he : enabled s (.w_lock_or h))
    (hex : Exclusive (step s (.w_lock_or h))) : covered s (.w_lock_or h) := by
  intro hg _ k _ hk
  have houtside : s.pc h = .Idle ∨ s.pc h = .WLock := he
  have hkh : k ≠ h := by
    rintro rfl
    rcases houtside with hpc | hpc <;> rw [hpc] at hk <;> cases hk
  rw [step, futex_lock_s_eq, if_pos hg] at hex
  apply hex.reader k h
  · exact (Function.update_of_ne hkh ..).trans hk
  · exact Function.update_self ..

/-- **Nothing else is safe.** After a covered run, and while the counter has room, a step keeps
the exclusion only if it is covered too. -/
theorem covered_iff_exclusive [Fintype Hpu] (hs : CoveredReach s)
    (hroom : (counted_hpus s.pc).card < 2 ^ 32) {op : op_t Hpu} (he : enabled s op) :
    covered s op ↔ Exclusive (step s op) := by
  constructor
  · intro hcov
    have hnext : CoveredReach (step s op) := hs.clock ⟨he, hcov⟩
    obtain ⟨-, o, ho⟩ := hnext.owned
    exact ho.exclusive
  · intro hex
    obtain ⟨hc, -⟩ := hs.owned
    cases op with
    | r_lock_add h => exact covered_of_r_lock_add hc hroom he hex
    | w_lock_or h => exact covered_of_w_lock_or he hex
    | _ => trivial

/-! A reader waits for a writer, enters, and a second one follows it in; both leave. When the
next writer has left too, two readers enter at once. -/

/-- A writer is inside, a reader spins, and gets in after the writer has left; the next writer
spins, a second reader follows, and both readers leave. After the second writer has been inside,
a reader overtakes the first one, which then takes the lock; the writer spins again, and the
first reader leaves. -/
def demo_ops : List (op_t (Fin 3)) :=
  [.w_lock_or 0, .r_lock_add 1, .r_lock_or 1, .w_unlock_store 0, .r_lock_or 1, .w_lock_or 0,
    .r_lock_add 2, .r_unlock_add 1, .r_unlock_add 2, .r_unlock_store 2, .w_lock_or 0,
    .w_unlock_store 0, .r_lock_add 1, .r_lock_add 2, .r_lock_or 1, .w_lock_or 0, .r_unlock_add 1]

instance [Fintype Hpu] (s : State Hpu) : (o : op_t Hpu) → Decidable (covered s o)
  | .r_lock_add _ => inferInstanceAs (Decidable (∀ k, counted (s.pc k) = true →
      s.num_readers ≠ 0 ∧ (s.pc k = .RLock → ∀ w, s.pc w ≠ .Writing)))
  | .r_lock_or _ => isTrue trivial
  | .r_unlock_add _ => isTrue trivial
  | .r_unlock_store _ => isTrue trivial
  | .w_lock_or _ =>
    inferInstanceAs (Decidable (s.glock = 0 → ∀ r k, s.pc r = .RLock → s.pc k ≠ .Reading))
  | .w_unlock_store _ => isTrue trivial

theorem rw_lock_exclusive_demo :
    Exclusive (Sync.run step init demo_ops)
      ∧ (Sync.run step init demo_ops).pc 0 = .WLock
      ∧ (Sync.run step init demo_ops).pc 2 = .Reading := by
  have hstart : CoveredReach (init : State (Fin 3)) := .reset rfl
  have hreach : CoveredReach (Sync.run step init demo_ops) := hstart.run (by decide +kernel)
  exact ⟨rw_lock_exclusive hreach, by decide +kernel, by decide +kernel⟩

/-- The second reader does not wait for the first. -/
def reader_beside_writer_ops : List (op_t (Fin 3)) :=
  [.w_lock_or 0, .r_lock_add 1, .r_lock_add 2]

/-- HPU 0 holds the lock as a writer; reader 1 spins on it, and reader 2 finds the counter at
1 and goes ahead. -/
theorem reader_beside_writer : ¬ ∀ s : State (Fin 3), Reach s → Exclusive s := by
  intro hall
  have hstart : Reach (init : State (Fin 3)) := .reset rfl
  have hreach : Reach (Sync.run step init reader_beside_writer_ops) :=
    hstart.run (by decide +kernel)
  exact (hall _ hreach).reader 2 0 (by decide +kernel) (by decide +kernel)

end Pspin.RwLock
