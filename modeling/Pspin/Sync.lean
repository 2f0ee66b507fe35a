/-
Runs of a synchronous machine under an environment.

A clocked design is a register state and one step for each rising edge. What
the outside may do in a cycle depends on what the design shows it, so the
environment is a relation between the registers and the inputs of the cycle,
and a state is reachable when a run of allowed cycles leads to it from reset.

Everything in this file is about an arbitrary state type and an arbitrary step.
-/
import Mathlib.Data.List.Basic
import Mathlib.Tactic.Common

set_option autoImplicit false

namespace Sync

section Reach

variable {σ ι : Type*} {init : σ → Prop} {step : σ → ι → σ} {env : σ → ι → Prop}

/-- The states a machine reaches from reset, one allowed cycle after another. -/
inductive Reach (init : σ → Prop) (step : σ → ι → σ) (env : σ → ι → Prop) : σ → Prop
  | reset {s : σ} (h : init s) : Reach init step env s
  | clock {s : σ} {i : ι} (h : Reach init step env s) (he : env s i) :
      Reach init step env (step s i)

/-- **The invariant rule.** What reset establishes and every allowed cycle
keeps holds in every reachable state. -/
theorem Reach.inv {P : σ → Prop} (h0 : ∀ s, init s → P s)
    (hs : ∀ s i, P s → env s i → P (step s i)) {s : σ} (h : Reach init step env s) : P s := by
  induction h with
  | reset h => exact h0 _ h
  | clock _ he ih => exact hs _ _ ih he

/-- The invariant rule with an invariant already known, for the second of two
invariants where the first helps. -/
theorem Reach.inv_of {P Q : σ → Prop} (hP : ∀ s, Reach init step env s → P s)
    (h0 : ∀ s, init s → Q s) (hs : ∀ s i, P s → Q s → env s i → Q (step s i)) {s : σ}
    (h : Reach init step env s) : Q s := by
  induction h with
  | reset h => exact h0 _ h
  | clock h he ih => exact hs _ _ (hP _ h) ih he

/-- A run of a larger machine seen through `f` is a run of the smaller one, when
`f` turns every allowed cycle of the first into an allowed cycle of the second. -/
theorem Reach.project {τ κ : Type*} {init' : τ → Prop} {step' : τ → κ → τ} {env' : τ → κ → Prop}
    (f : σ → τ) (g : σ → ι → κ) (h0 : ∀ s, init s → init' (f s))
    (hs : ∀ s i, Reach init step env s → env s i →
      env' (f s) (g s i) ∧ f (step s i) = step' (f s) (g s i)) {s : σ}
    (h : Reach init step env s) : Reach init' step' env' (f s) := by
  induction h with
  | reset h => exact .reset (h0 _ h)
  | clock h he ih =>
      obtain ⟨he', heq⟩ := hs _ _ h he
      rw [heq]
      exact .clock ih he'

/-- A run under a stricter environment is a run under a looser one. -/
theorem Reach.mono {env' : σ → ι → Prop} (hle : ∀ s i, env s i → env' s i) {s : σ}
    (h : Reach init step env s) : Reach init step env' s :=
  h.project id (fun _ i => i) (fun _ h => h) (fun _ _ _ he => ⟨hle _ _ he, rfl⟩)

end Reach

/-! ## Finite runs

A concrete run is a list of inputs; `Allowed` says that the environment may
produce it, and is decidable where the environment is. -/

section Run

variable {σ ι : Type*} (step : σ → ι → σ) (env : σ → ι → Prop)

/-- The state after a list of cycles. -/
def run (s : σ) (is : List ι) : σ := is.foldl step s

/-- The environment allows every cycle of the list. -/
def Allowed : σ → List ι → Prop
  | _, [] => True
  | s, i :: is => env s i ∧ Allowed (step s i) is

instance Allowed.decidable [∀ s i, Decidable (env s i)] :
    ∀ (s : σ) (is : List ι), Decidable (Allowed step env s is)
  | _, [] => isTrue trivial
  | s, i :: is =>
    match (inferInstance : Decidable (env s i)), Allowed.decidable (step s i) is with
    | isTrue h, isTrue h' => isTrue ⟨h, h'⟩
    | isFalse h, _ => isFalse fun hc => h hc.1
    | _, isFalse h => isFalse fun hc => h hc.2

variable {step env}

/-- A concrete allowed run from a reachable state ends in a reachable state. -/
theorem Reach.run {init : σ → Prop} {s : σ} (h : Reach init step env s) :
    ∀ {is : List ι}, Allowed step env s is → Reach init step env (run step s is) := by
  intro is
  induction is generalizing s with
  | nil => exact fun _ => h
  | cons i is ih => exact fun ha => ih (.clock h ha.1) ha.2

/-! A property of the states of a run, and its relation to what each cycle keeps. -/

/-- `P` holds in the start state and after every cycle of the list. -/
def Always (step : σ → ι → σ) (P : σ → Prop) : σ → List ι → Prop
  | s, [] => P s
  | s, i :: is => P s ∧ Always step P (step s i) is

/-- A property that always holds does so at the start. -/
theorem Always.head {P : σ → Prop} {s : σ} {is : List ι} (h : Always step P s is) : P s := by
  cases is with
  | nil => exact h
  | cons i is => exact h.1

theorem Always.last {P : σ → Prop} {s : σ} {is : List ι} (h : Always step P s is) :
    P (run step s is) := by
  induction is generalizing s with
  | nil => exact h
  | cons i is ih => exact ih h.2

/-- An invariant holds all along a run. -/
theorem Always.of_inv {P : σ → Prop} (hs : ∀ s i, P s → env s i → P (step s i)) :
    ∀ {s : σ} {is : List ι}, P s → Allowed step env s is → Always step P s is := by
  intro s is
  induction is generalizing s with
  | nil => exact fun hp _ => hp
  | cons i is ih => exact fun hp ha => ⟨hp, ih (hs s i hp ha.1) ha.2⟩

/-- Two conditions on the cycles of a run. -/
theorem Allowed.and {env' : σ → ι → Prop} : ∀ {s : σ} {is : List ι}, Allowed step env s is →
    Allowed step env' s is → Allowed step (fun s i => env s i ∧ env' s i) s is := by
  intro s is
  induction is generalizing s with
  | nil => exact fun _ _ => trivial
  | cons i is ih => exact fun h h' => ⟨⟨h.1, h'.1⟩, ih h.2 h'.2⟩

/-- Runs of a stricter environment are runs. -/
theorem Allowed.mono {env' : σ → ι → Prop} (hle : ∀ s i, env s i → env' s i) :
    ∀ {s : σ} {is : List ι}, Allowed step env s is → Allowed step env' s is := by
  intro s is
  induction is generalizing s with
  | nil => exact fun _ => trivial
  | cons i is ih => exact fun h => ⟨hle s i h.1, ih h.2⟩

/-- A weaker property always holds too. -/
theorem Always.mono {P Q : σ → Prop} (hPQ : ∀ s, P s → Q s) : ∀ {s : σ} {is : List ι},
    Always step P s is → Always step Q s is := by
  intro s is
  induction is generalizing s with
  | nil => exact fun h => hPQ s h
  | cons i is ih => exact fun h => ⟨hPQ s h.1, ih h.2⟩

/-- What a good cycle keeps, and a bad one loses for good, holds at the end of a run exactly
when all its cycles are good. -/
theorem run_iff {P I : σ → Prop} {good : σ → ι → Prop}
    (hI : ∀ s i, I s → env s i → I (step s i))
    (hs : ∀ s i, I s → env s i → (P (step s i) ↔ P s ∧ good s i)) :
    ∀ {s : σ} {is : List ι}, I s → Allowed step env s is →
      (P (run step s is) ↔ P s ∧ Allowed step good s is) := by
  intro s is
  induction is generalizing s with
  | nil => exact fun _ _ => (and_iff_left trivial).symm
  | cons i is ih =>
      intro hi ha
      have hrest := ih (hI s i hi ha.1) ha.2
      rw [hs s i hi ha.1, and_assoc] at hrest
      exact hrest

/-- Cycles that start in a state with `P` have `Q`. -/
theorem Always.allowed {P I : σ → Prop} {Q : σ → ι → Prop}
    (hI : ∀ s i, I s → env s i → I (step s i)) (hQ : ∀ s i, I s → P s → env s i → Q s i) :
    ∀ {s : σ} {is : List ι}, I s → Allowed step env s is → Always step P s is →
      Allowed step Q s is := by
  intro s is
  induction is generalizing s with
  | nil => exact fun _ _ _ => trivial
  | cons i is ih =>
      intro hi ha hal
      exact ⟨hQ s i hi hal.1 ha.1, ih (hI s i hi ha.1) ha.2 hal.2⟩

/-- **Exactly the good cycles.** If `P` survives a cycle exactly when the cycle is good,
then `P` holds all along a run exactly when all its cycles are good. `I` is an invariant
of the good cycles. -/
theorem always_iff {P I : σ → Prop} {good : σ → ι → Prop}
    (hI : ∀ s i, I s → env s i → good s i → I (step s i))
    (hs : ∀ s i, I s → env s i → P s → (P (step s i) ↔ good s i)) :
    ∀ {s : σ} {is : List ι}, I s → P s → Allowed step env s is →
      (Always step P s is ↔ Allowed step good s is) := by
  intro s is
  induction is generalizing s with
  | nil => exact fun _ hp _ => ⟨fun _ => trivial, fun _ => hp⟩
  | cons i is ih =>
      intro hi hp ha
      have hstep := hs s i hi ha.1 hp
      constructor
      · rintro ⟨-, hal⟩
        have hp' := hal.head
        have hg := hstep.mp hp'
        exact ⟨hg, (ih (hI s i hi ha.1 hg) hp' ha.2).mp hal⟩
      · rintro ⟨hg, hgood⟩
        have hp' := hstep.mpr hg
        exact ⟨hp, (ih (hI s i hi ha.1 hg) hp' ha.2).mpr hgood⟩

end Run

/-! ## What is bound to happen

`LeadsTo step env n P Q`: from a state with `P`, every run of at least `n` allowed cycles ends
in a state with `Q`. -/

section LeadsTo

variable {σ ι : Type*} {step : σ → ι → σ} {env : σ → ι → Prop} {P Q R : σ → Prop} {m n : ℕ}

theorem Allowed.take_drop (n : ℕ) : ∀ {s : σ} {is : List ι}, Allowed step env s is →
    Allowed step env s (is.take n)
      ∧ Allowed step env (Sync.run step s (is.take n)) (is.drop n) := by
  induction n with
  | zero => exact fun h => ⟨trivial, h⟩
  | succ n ih =>
      intro s is h
      cases is with
      | nil => exact ⟨trivial, trivial⟩
      | cons i is =>
          obtain ⟨hfirst, hrest⟩ := ih h.2
          exact ⟨⟨h.1, hfirst⟩, hrest⟩

theorem run_take_drop (s : σ) (is : List ι) (n : ℕ) :
    Sync.run step (Sync.run step s (is.take n)) (is.drop n) = Sync.run step s is := by
  simp only [Sync.run, ← List.foldl_append, List.take_append_drop]

/-- Whatever the inputs are, `Q` holds after `n` cycles or more of a run from `P`. -/
def LeadsTo (step : σ → ι → σ) (env : σ → ι → Prop) (n : ℕ) (P Q : σ → Prop) : Prop :=
  ∀ s is, P s → Allowed step env s is → n ≤ is.length → Q (Sync.run step s is)

theorem LeadsTo.trans (h : LeadsTo step env m P Q) (h' : LeadsTo step env n Q R) :
    LeadsTo step env (m + n) P R := by
  intro s is hp ha hn
  obtain ⟨hfirst, hrest⟩ := ha.take_drop m
  rw [← run_take_drop s is m]
  apply h' _ _ (h s _ hp hfirst _) hrest
  · rw [List.length_drop]
    omega
  · rw [List.length_take]
    omega

theorem LeadsTo.mono {P' Q' : σ → Prop} (h : LeadsTo step env n P Q) (hP : ∀ s, P' s → P s)
    (hQ : ∀ s, Q s → Q' s) : LeadsTo step env n P' Q' :=
  fun s is hp ha hn => hQ _ (h s is (hP s hp) ha hn)

/-- **The ranking rule.** What loses one in every cycle is gone after as many. -/
theorem LeadsTo.of_rank {I : σ → Prop} {μ : σ → ℕ}
    (hI : ∀ s i, I s → env s i → I (step s i) ∧ μ (step s i) ≤ μ s - 1) (n : ℕ) :
    LeadsTo step env n (fun s => I s ∧ μ s ≤ n) fun s => I s ∧ μ s = 0 := by
  intro s is
  induction is generalizing s n with
  | nil =>
      rintro ⟨hi, hle⟩ - hn
      have hzero : n = 0 := Nat.le_zero.mp hn
      exact ⟨hi, by show μ s = 0; omega⟩
  | cons i is ih =>
      rintro ⟨hi, hle⟩ ha hn
      obtain ⟨hi', hless⟩ := hI s i hi ha.1
      have hn' : n - 1 ≤ is.length := by
        rw [List.length_cons] at hn
        omega
      exact ih (n - 1) _ ⟨hi', by omega⟩ ha.2 hn'

/-- Runs of any length, where some cycle is always allowed. -/
theorem exists_allowed (step : σ → ι → σ) (henv : ∀ s, ∃ i, env s i) (n : ℕ) :
    ∀ s : σ, ∃ is : List ι, Allowed step env s is ∧ is.length = n := by
  induction n with
  | zero => exact fun s => ⟨[], trivial, rfl⟩
  | succ n ih =>
      intro s
      obtain ⟨i, hi⟩ := henv s
      obtain ⟨is, his, hlen⟩ := ih (step s i)
      exact ⟨i :: is, ⟨hi, his⟩, by rw [List.length_cons, hlen]⟩

end LeadsTo

/-! ## What a cycle adds

A record of a run grows by at most one element in a cycle. -/

section Record

variable {α : Type*} (l : List α) (b : Bool) (x : α)

theorem length_if : (if b then [x] else []).length = b.toNat := by
  cases b <;> rfl

theorem length_append_if : (l ++ if b then [x] else []).length = l.length + b.toNat := by
  rw [List.length_append, length_if]

end Record

end Sync
