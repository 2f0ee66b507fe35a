/-
Emptying a delay line.

Requests leave a source with gaps between them, are due some time later, and go out over
lines that may wait. `gap` counts the cycles until the source is empty, `times` are those at
which the requests on the line are due, and `load` counts what is still to go out. When no
request is added and the lines are taken, the cycles until nothing is left have a bound that
is known from the start.
-/
import Pspin.Sync

set_option autoImplicit false

namespace DelayLine

/-- What is measured in a state. -/
structure Measure (σ : Type*) where
  gap : σ → ℕ
  load : σ → ℕ
  wait : σ → Bool
  now : σ → ℕ
  times : σ → List ℕ

variable {σ ι : Type*} (d : Measure σ) (L : ℕ)

/-- **What a cycle does**, under an invariant. -/
structure Empties (inv : σ → Prop) (step : σ → ι → σ) (env : σ → ι → Prop) : Prop where
  keeps : ∀ s i, inv s → env s i → inv (step s i)
  wait : ∀ s i, inv s → env s i → d.wait (step s i) = false
  now : ∀ s i, inv s → env s i → d.now s < d.now (step s i)
  gap : ∀ s i, inv s → env s i → d.gap (step s i) ≤ d.gap s - 1
  load : ∀ s i, inv s → env s i → d.load (step s i) ≤ d.load s
  times : ∀ s i, inv s → env s i → d.gap s = 0 → ∀ t ∈ d.times (step s i), t ∈ d.times s
  due : ∀ s i, inv s → env s i → d.wait s = false → d.gap s = 0 → (∀ t ∈ d.times s, t ≤ d.now s) →
    d.load (step s i) ≤ d.load s - 1
  delay : ∀ s, inv s → ∀ t ∈ d.times s, t ≤ d.now s + L

namespace Empties

variable {d L} {inv : σ → Prop} {step : σ → ι → σ} {env : σ → ι → Prop}
  (h : Empties d L inv step env) (g l t : ℕ)

include h

/-! The phases: the lines are free, the source is empty, the last request is due, and the rest
goes out. -/

theorem wait_phase : Sync.LeadsTo step env 1
    (fun s => (inv s ∧ d.gap s ≤ g ∧ d.load s ≤ l) ∧ (d.wait s).toNat ≤ 1)
    (fun s => (inv s ∧ d.gap s ≤ g ∧ d.load s ≤ l) ∧ (d.wait s).toNat = 0) := by
  apply Sync.LeadsTo.of_rank
  rintro s i ⟨hinv, hgap, hload⟩ he
  have hgap' := h.gap s i hinv he
  have hload' := h.load s i hinv he
  refine ⟨⟨h.keeps s i hinv he, by omega, by omega⟩, ?_⟩
  simp [h.wait s i hinv he]

theorem gap_phase : Sync.LeadsTo step env g
    (fun s => (inv s ∧ d.wait s = false ∧ d.load s ≤ l) ∧ d.gap s ≤ g)
    (fun s => (inv s ∧ d.wait s = false ∧ d.load s ≤ l) ∧ d.gap s = 0) := by
  apply Sync.LeadsTo.of_rank
  rintro s i ⟨hinv, -, hload⟩ he
  have hload' := h.load s i hinv he
  exact ⟨⟨h.keeps s i hinv he, h.wait s i hinv he, by omega⟩, h.gap s i hinv he⟩

theorem due_phase : Sync.LeadsTo step env L
    (fun s => (inv s ∧ d.wait s = false ∧ d.load s ≤ l ∧ d.gap s = 0 ∧ ∀ x ∈ d.times s, x ≤ t)
      ∧ t - d.now s ≤ L)
    (fun s => (inv s ∧ d.wait s = false ∧ d.load s ≤ l ∧ d.gap s = 0 ∧ ∀ x ∈ d.times s, x ≤ t)
      ∧ t - d.now s = 0) := by
  apply Sync.LeadsTo.of_rank
  rintro s i ⟨hinv, -, hload, hgap, htimes⟩ he
  have hnow := h.now s i hinv he
  have hgap' := h.gap s i hinv he
  have hload' := h.load s i hinv he
  refine ⟨⟨h.keeps s i hinv he, h.wait s i hinv he, by omega, by omega, fun x hx => ?_⟩, by omega⟩
  exact htimes x (h.times s i hinv he hgap x hx)

theorem load_phase : Sync.LeadsTo step env l
    (fun s => (inv s ∧ d.wait s = false ∧ d.gap s = 0 ∧ ∀ x ∈ d.times s, x ≤ d.now s)
      ∧ d.load s ≤ l)
    (fun s => (inv s ∧ d.wait s = false ∧ d.gap s = 0 ∧ ∀ x ∈ d.times s, x ≤ d.now s)
      ∧ d.load s = 0) := by
  apply Sync.LeadsTo.of_rank
  rintro s i ⟨hinv, hwait, hgap, htimes⟩ he
  have hnow := h.now s i hinv he
  have hgap' := h.gap s i hinv he
  refine ⟨⟨h.keeps s i hinv he, h.wait s i hinv he, by omega, fun x hx => ?_⟩,
    h.due s i hinv he hwait hgap htimes⟩
  have hold := htimes x (h.times s i hinv he hgap x hx)
  omega

/-- **Everything goes out.** -/
theorem leads_to : Sync.LeadsTo step env (1 + g + L + l)
    (fun s => inv s ∧ d.gap s ≤ g ∧ d.load s ≤ l) (fun s => inv s ∧ d.load s = 0) := by
  have hfree : Sync.LeadsTo step env 1 (fun s => inv s ∧ d.gap s ≤ g ∧ d.load s ≤ l)
      (fun s => (inv s ∧ d.wait s = false ∧ d.load s ≤ l) ∧ d.gap s ≤ g) := by
    refine (h.wait_phase g l).mono (fun s hs => ⟨hs, Bool.toNat_le _⟩) ?_
    rintro s ⟨⟨hinv, hgap, hload⟩, hwait⟩
    exact ⟨⟨hinv, by simpa using hwait, hload⟩, hgap⟩
  have hdue : Sync.LeadsTo step env L
      (fun s => (inv s ∧ d.wait s = false ∧ d.load s ≤ l) ∧ d.gap s = 0)
      (fun s => (inv s ∧ d.wait s = false ∧ d.gap s = 0 ∧ ∀ x ∈ d.times s, x ≤ d.now s)
        ∧ d.load s ≤ l) := by
    rintro s is ⟨⟨hinv, hwait, hload⟩, hgap⟩ ha hn
    obtain ⟨⟨hinv', hwait', hload', hgap', htimes⟩, hnow⟩ := h.due_phase l (d.now s + L) s is
      ⟨⟨hinv, hwait, hload, hgap, h.delay s hinv⟩, by omega⟩ ha hn
    exact ⟨⟨hinv', hwait', hgap', fun x hx => Nat.le_trans (htimes x hx) (by omega)⟩, hload'⟩
  exact (((hfree.trans (h.gap_phase g l)).trans hdue).trans (h.load_phase l)).mono
    (fun _ hs => hs) (fun _ hs => ⟨hs.1.1, hs.2⟩)

end Empties

end DelayLine
