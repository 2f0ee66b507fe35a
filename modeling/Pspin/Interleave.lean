/-
Programs over shared accesses, and the interleavings of several of them.

A program is a tree of accesses: each names an operation on the shared state and goes on
with its result. Run alone it is a function of the state; run beside others, a step of
the system is one access of one thread.

The second half is a rely-guarantee method for the interleavings. A method fixes an
invariant over the state and a ghost state, and for each thread a relation that every
access of another thread keeps to. Each thread is then verified on its own with `wp`.

Nothing in this file names a particular state or operation.
-/
import Mathlib.Logic.Function.Basic
import Mathlib.Tactic.Common

set_option autoImplicit false

namespace Interleave

/-- What one access does: it completes, it has to wait, or it is not defined. -/
inductive Access (σ R : Type)
  | ok (r : R) (s : σ)
  | wait
  | undefined

/-- `unfinished` is a loop that has used up its bound. -/
inductive Prog (Op : Type → Type) (α : Type) : Type 1
  | ret (a : α)
  | access {R : Type} (o : Op R) (k : R → Prog Op α)
  | unfinished

variable {Op : Type → Type} {α β σ R : Type}

namespace Prog

/-- One program after the other. -/
def bind : Prog Op α → (α → Prog Op β) → Prog Op β
  | ret a, f => f a
  | access o k, f => access o fun r => (k r).bind f
  | unfinished, _ => unfinished

instance : Monad (Prog Op) where
  pure := ret
  bind := bind

@[simp] theorem pure_eq (a : α) : (pure a : Prog Op α) = ret a := rfl

@[simp] theorem ret_bind (a : α) (f : α → Prog Op β) : (ret a >>= f) = f a := rfl

@[simp] theorem access_bind (o : Op R) (k : R → Prog Op α) (f : α → Prog Op β) :
    (access o k >>= f) = access o fun r => k r >>= f := rfl

@[simp] theorem unfinished_bind (f : α → Prog Op β) :
    ((unfinished : Prog Op α) >>= f) = unfinished := rfl

end Prog

/-! ## One program alone -/

/-- What a program that runs alone comes to: a result, a spin that nothing can end, undefined
behaviour, or more steps than it was given. -/
inductive Outcome (σ α : Type)
  | ok (a : α) (s : σ)
  | wait
  | undefined
  | unfinished

/-- The second program runs if the first one ended. -/
def Outcome.bind : Outcome σ α → (α → σ → Outcome σ β) → Outcome σ β
  | ok a s, f => f a s
  | wait, _ => wait
  | undefined, _ => undefined
  | unfinished, _ => unfinished

/-- The state a program leaves when it ends. -/
def Outcome.state : Outcome σ α → Option σ
  | ok _ s => some s
  | _ => none

@[simp] theorem Outcome.ok_bind (a : α) (s : σ) (f : α → σ → Outcome σ β) :
    (Outcome.ok a s).bind f = f a s := rfl

@[simp] theorem Outcome.undefined_bind (f : α → σ → Outcome σ β) :
    (Outcome.undefined : Outcome σ α).bind f = .undefined := rfl

/-- The outcome of a single access. -/
@[simp] def Access.outcome : Access σ R → Outcome σ R
  | .ok r s => .ok r s
  | .wait => .wait
  | .undefined => .undefined

/-- The program run to its end with nothing beside it. -/
def Prog.run (sem : {R : Type} → Op R → σ → Access σ R) : Prog Op α → σ → Outcome σ α
  | .ret a, s => .ok a s
  | .access o k, s =>
    match sem o s with
    | .ok r s' => (k r).run sem s'
    | .wait => .wait
    | .undefined => .undefined
  | .unfinished, _ => .unfinished

/-- The first `n` accesses of the program, with nothing beside it. -/
def Prog.advance (sem : {R : Type} → Op R → σ → Access σ R) :
    ℕ → Prog Op α → σ → Option (Prog Op α × σ)
  | 0, p, s => some (p, s)
  | n + 1, .access o k, s =>
    match sem o s with
    | .ok r s' => (k r).advance sem n s'
    | _ => none
  | _ + 1, _, _ => none

/-- `may` holds at each of the first `n` accesses. -/
def Prog.Allowed (sem : {R : Type} → Op R → σ → Access σ R) (may : {R : Type} → Op R → σ → Prop) :
    ℕ → Prog Op α → σ → Prop
  | n + 1, .access o k, s =>
    may o s ∧ match sem o s with
      | .ok r s' => (k r).Allowed sem may n s'
      | _ => True
  | _, _, _ => True

/-- Where every access is allowed, so is every program. -/
theorem Prog.allowed {sem : {R : Type} → Op R → σ → Access σ R} {may : {R : Type} → Op R → σ → Prop}
    (hm : ∀ {R : Type} (o : Op R) s, may o s) (n : ℕ) (p : Prog Op α) (s : σ) :
    p.Allowed sem may n s := by
  induction n generalizing p s with
  | zero => exact trivial
  | succ n ih =>
      cases p with
      | ret a => trivial
      | access o k =>
          refine ⟨hm o s, ?_⟩
          split
          · exact ih _ _
          · trivial
      | unfinished => trivial

section Run

variable {sem : {R : Type} → Op R → σ → Access σ R}

@[simp] theorem Prog.run_ret (a : α) (s : σ) :
    (Prog.ret a : Prog Op α).run sem s = .ok a s := rfl

@[simp] theorem Prog.run_unfinished (s : σ) :
    (Prog.unfinished : Prog Op α).run sem s = .unfinished := rfl

/-- Running two programs one after the other. -/
theorem Prog.run_bind (p : Prog Op α) (f : α → Prog Op β) (s : σ) :
    (p >>= f).run sem s = (p.run sem s).bind fun a s' => (f a).run sem s' := by
  induction p generalizing s with
  | ret a => rfl
  | access o k ih =>
      simp only [access_bind, Prog.run]
      cases sem o s with
      | ok r s' => exact ih r s'
      | wait => rfl
      | undefined => rfl
  | unfinished => rfl

end Run

/-- No access of the program changes the state. -/
def Prog.ReadOnly (sem : {R : Type} → Op R → σ → Access σ R) : Prog Op α → Prop
  | .ret _ => True
  | .access o k => (∀ s r s', sem o s = .ok r s' → s' = s) ∧ ∀ r, (k r).ReadOnly sem
  | .unfinished => True

/-- Two programs that only read do so one after the other. -/
theorem Prog.ReadOnly.bind {sem : {R : Type} → Op R → σ → Access σ R} {p : Prog Op α}
    {f : α → Prog Op β} (hp : p.ReadOnly sem) (hf : ∀ a, (f a).ReadOnly sem) :
    (p >>= f).ReadOnly sem := by
  induction p with
  | ret a => exact hf a
  | access o k ih => exact ⟨hp.1, fun r => ih r (hp.2 r)⟩
  | unfinished => trivial

/-! ## Several programs -/

/-- Threads of type `T` on a shared state: what one access of a thread does, which programs
an idle thread may start, and what it leaves when one has ended. -/
structure System (T σ : Type) (Op : Type → Type) (α : Type) where
  init : σ → Prop
  sem : T → {R : Type} → Op R → σ → Access σ R
  start : T → σ → Prog Op α → σ → Prop
  finish : T → α → σ → σ

/-- The shared state, and what each thread has still to do. -/
structure Threads (T σ : Type) (Op : Type → Type) (α : Type) where
  shared : σ
  prog : T → Option (Prog Op α)

section Threads

variable {T : Type} [DecidableEq T] (S : System T σ Op α)
  (may : T → {R : Type} → Op R → σ → Prop)

/-- A step of one thread. `may` says which accesses the runs that are looked at make. -/
inductive Step : Threads T σ Op α → Threads T σ Op α → Prop
  | start {t : Threads T σ Op α} {h : T} {p : Prog Op α} {s : σ} (hp : t.prog h = none)
      (hs : S.start h t.shared p s) : Step t ⟨s, Function.update t.prog h (some p)⟩
  | access {t : Threads T σ Op α} {h : T} {R : Type} {o : Op R} {k : R → Prog Op α} {r : R} {s : σ}
      (hp : t.prog h = some (.access o k)) (hm : may h o t.shared)
      (hs : S.sem h o t.shared = .ok r s) : Step t ⟨s, Function.update t.prog h (some (k r))⟩
  | finish {t : Threads T σ Op α} {h : T} {a : α} (hp : t.prog h = some (.ret a)) :
      Step t ⟨S.finish h a t.shared, Function.update t.prog h none⟩

/-- The states that the interleavings reach. -/
inductive Reach : Threads T σ Op α → Prop
  | init {s : σ} (h : S.init s) : Reach ⟨s, fun _ => none⟩
  | step {t t' : Threads T σ Op α} (h : Reach t) (hs : Step S may t t') : Reach t'

variable {S may}

/-- One thread goes on alone for `n` accesses. -/
theorem Reach.advance {t : Threads T σ Op α} (h : Reach S may t) {i : T} {p p' : Prog Op α}
    (n : ℕ) (hp : t.prog i = some p) (hm : p.Allowed (S.sem i) (may i) n t.shared) {s : σ}
    (hr : p.advance (S.sem i) n t.shared = some (p', s)) :
    Reach S may ⟨s, Function.update t.prog i (some p')⟩ := by
  induction n generalizing t p with
  | zero =>
      obtain ⟨rfl, rfl⟩ : p = p' ∧ t.shared = s := by simpa [Prog.advance] using hr
      rw [← hp, Function.update_eq_self]
      exact h
  | succ n ih =>
      cases p with
      | ret a => simp [Prog.advance] at hr
      | access o k =>
          rw [Prog.advance] at hr
          obtain ⟨hm₁, hm₂⟩ := hm
          cases hs : S.sem i o t.shared with
          | ok r s' =>
              rw [hs] at hr
              simp only [hs] at hm₂
              have := ih (h.step (.access hp hm₁ hs)) (Function.update_self i _ _) hm₂ hr
              rwa [Function.update_idem] at this
          | wait => simp [hs] at hr
          | undefined => simp [hs] at hr
      | unfinished => simp [Prog.advance] at hr

end Threads

/-! ## Rely and guarantee

`Rel h s g s' g'` is what thread `h` may count on while the others go from the state `s` with
ghost state `g` to `s'` with `g'`. -/

/-- What a proof about one thread may rely on: what its own accesses may do, an invariant of the
shared state with its ghost state, and a relation that says how the others may move both. -/
structure Rely {T σ α : Type} {Op : Type → Type} (S : System T σ Op α) (γ : Type) where
  may : T → {R : Type} → Op R → σ → Prop
  Inv : σ → γ → Prop
  Rel : T → σ → γ → σ → γ → Prop
  refl : ∀ h s g, Rel h s g s g
  trans : ∀ {h s g s' g' s'' g''}, Rel h s g s' g' → Rel h s' g' s'' g'' → Rel h s g s'' g''

namespace Rely

variable {T γ ω : Type} {S : System T σ Op ω} (M : Rely S γ) (h : T)

/-- The step from `s` keeps the invariant and what every other thread counts on. -/
def Keeps (s : σ) (g : γ) (s' : σ) (g' : γ) : Prop :=
  M.Inv s' g' ∧ ∀ k, k ≠ h → M.Rel k s g s' g'

/-- Thread `h` can run `p` among the others, and ends where `Q` holds. -/
def wp : Prog Op α → (α → σ → γ → Prop) → σ → γ → Prop
  | .ret a, Q, s, g => ∀ s' g', M.Rel h s g s' g' → M.Inv s' g' → Q a s' g'
  | .access o k, Q, s, g => ∀ s' g', M.Rel h s g s' g' → M.Inv s' g' → M.may h o s' →
      ∀ r s'', S.sem h o s' = .ok r s'' → ∃ g'', M.Keeps h s' g' s'' g'' ∧ wp (k r) Q s'' g''
  | .unfinished, _, _, _ => True

/-- No step of another thread makes `A` false. -/
def Stable (A : σ → γ → Prop) : Prop :=
  ∀ ⦃s g s' g'⦄, A s g → M.Rel h s g s' g' → M.Inv s' g' → A s' g'

/-- `A` before the program leads to `B` after it, whatever the others do in between. -/
def Triple (A : σ → γ → Prop) (p : Prog Op α) (B : α → σ → γ → Prop) : Prop :=
  ∀ s g, M.Inv s g → A s g → M.wp h p B s g

variable {M h}

theorem Keeps.refl {s : σ} {g : γ} (hI : M.Inv s g) : M.Keeps h s g s g :=
  ⟨hI, fun k _ => M.refl k s g⟩

/-- Two assertions that the others leave alone. -/
theorem Stable.and {A A' : σ → γ → Prop} (hA : M.Stable h A) (hA' : M.Stable h A') :
    M.Stable h fun s g => A s g ∧ A' s g :=
  fun _ _ _ _ ha hr hI => ⟨hA ha.1 hr hI, hA' ha.2 hr hI⟩

theorem Stable.pure (φ : Prop) : M.Stable h fun _ _ => φ :=
  fun _ _ _ _ hφ _ _ => hφ

/-- An assertion under a condition without state. -/
theorem Stable.guard {φ : Prop} {A : σ → γ → Prop} (hA : φ → M.Stable h A) :
    M.Stable h fun s g => φ ∧ A s g :=
  fun _ _ _ _ ha hr hI => ⟨ha.1, hA ha.1 ha.2 hr hI⟩

theorem Stable.of_exists {ι : Type} {A : ι → σ → γ → Prop} (hA : ∀ i, M.Stable h (A i)) :
    M.Stable h fun s g => ∃ i, A i s g :=
  fun _ _ _ _ ⟨i, ha⟩ hr hI => ⟨i, hA i ha hr hI⟩

/-- A precondition is stable: the program may be about to run while the others do. -/
theorem wp_stable {p : Prog Op α} {Q : α → σ → γ → Prop} {s s' : σ} {g g' : γ}
    (hw : M.wp h p Q s g) (hr : M.Rel h s g s' g') : M.wp h p Q s' g' := by
  cases p with
  | ret a => exact fun s'' g'' hr' hI => hw s'' g'' (M.trans hr hr') hI
  | access o k => exact fun s'' g'' hr' hI => hw s'' g'' (M.trans hr hr') hI
  | unfinished => trivial

/-- A weaker postcondition is reached as well. -/
theorem wp_mono {p : Prog Op α} {Q Q' : α → σ → γ → Prop}
    (hQ : ∀ a s g, M.Inv s g → Q a s g → Q' a s g) :
    ∀ {s g}, M.wp h p Q s g → M.wp h p Q' s g := by
  induction p with
  | ret a => exact fun hw s' g' hr hI => hQ a s' g' hI (hw s' g' hr hI)
  | access o k ih =>
      intro s g hw s' g' hr hI hm r s'' hs
      obtain ⟨g'', hk, hw'⟩ := hw s' g' hr hI hm r s'' hs
      exact ⟨g'', hk, ih r hw'⟩
  | unfinished => exact fun _ => trivial

/-- The rule of sequence, for preconditions. -/
theorem wp_bind {p : Prog Op α} {f : α → Prog Op β} {Q : β → σ → γ → Prop} :
    ∀ {s g}, M.Inv s g → M.wp h p (fun a => M.wp h (f a) Q) s g → M.wp h (p >>= f) Q s g := by
  induction p with
  | ret a => exact fun hI hw => hw _ _ (M.refl h _ _) hI
  | access o k ih =>
      intro s g _ hw s' g' hr hI hm r s'' hs
      obtain ⟨g'', hk, hw'⟩ := hw s' g' hr hI hm r s'' hs
      exact ⟨g'', hk, ih r hk.1 hw'⟩
  | unfinished => exact fun _ _ => trivial

namespace Triple

variable {A A' : σ → γ → Prop} {p : Prog Op α} {B B' : α → σ → γ → Prop}

theorem ret {a : α} (hA : M.Stable h A) (hB : ∀ s g, M.Inv s g → A s g → B a s g) :
    M.Triple h A (.ret a) B :=
  fun _ _ _ hAs s' g' hr hI => hB s' g' hI (hA hAs hr hI)

/-- Partial correctness: nothing is said of a program that runs out of rounds. -/
theorem unfinished : M.Triple h A (.unfinished : Prog Op α) B := fun _ _ _ _ => trivial

theorem false : M.Triple h (fun _ _ => False) p B := fun _ _ _ hAs => hAs.elim

/-- One access. -/
theorem access {o : Op α} (hA : M.Stable h A) (hB : ∀ r, M.Stable h (B r))
    (hs : ∀ s g r s', M.Inv s g → A s g → M.may h o s → S.sem h o s = .ok r s' →
      ∃ g', M.Keeps h s g s' g' ∧ B r s' g') : M.Triple h A (.access o .ret) B := by
  intro s g _ hAs s' g' hr hI hm r s'' hsem
  obtain ⟨g'', hk, hBs⟩ := hs s' g' r s'' hI (hA hAs hr hI) hm hsem
  exact ⟨g'', hk, fun _ _ hr' hI' => hB r hBs hr' hI'⟩

/-- One access that changes nothing. -/
theorem read {o : Op α} (hA : M.Stable h A) (hB : ∀ r, M.Stable h (B r))
    (hs : ∀ s g r s', M.Inv s g → A s g → M.may h o s → S.sem h o s = .ok r s' →
      s' = s ∧ B r s g) : M.Triple h A (.access o .ret) B :=
  access hA hB fun s g r s' hI hAs hm hsem => by
    obtain ⟨rfl, hBs⟩ := hs s g r s' hI hAs hm hsem
    exact ⟨g, Keeps.refl hI, hBs⟩

theorem bind {f : α → Prog Op β} {C : β → σ → γ → Prop} (hp : M.Triple h A p B)
    (hf : ∀ a, M.Triple h (B a) (f a) C) : M.Triple h A (p >>= f) C :=
  fun s g hI hAs => wp_bind hI (wp_mono (fun a s g hI hBs => hf a s g hI hBs) (hp s g hI hAs))

/-- The rule of consequence. The invariant helps on both sides. -/
theorem conseq (hp : M.Triple h A p B) (hA : ∀ s g, M.Inv s g → A' s g → A s g)
    (hB : ∀ a s g, M.Inv s g → B a s g → B' a s g) : M.Triple h A' p B' :=
  fun s g hI hAs => wp_mono hB (hp s g hI (hA s g hI hAs))

/-- What `A` says about no state is known about the program. -/
theorem pure {φ : Prop} (hp : φ → M.Triple h A p B) : M.Triple h (fun s g => φ ∧ A s g) p B :=
  fun s g hI hAs => hp hAs.1 s g hI hAs.2

/-- A witness of the precondition can be fixed first. -/
theorem of_exists {ι : Type} {A : ι → σ → γ → Prop} (hp : ∀ i, M.Triple h (A i) p B) :
    M.Triple h (fun s g => ∃ i, A i s g) p B :=
  fun s g hI ⟨i, hAs⟩ => hp i s g hI hAs

/-- A program that changes nothing keeps what the others leave alone. -/
theorem readOnly (hp : p.ReadOnly (S.sem h)) (hA : M.Stable h A) :
    M.Triple h A p fun _ => A := by
  induction p with
  | ret a => exact ret hA fun _ _ _ hAs => hAs
  | access o k ih =>
      intro s g _ hAs s' g' hr hI _ r s'' hsem
      obtain rfl := hp.1 s' r s'' hsem
      exact ⟨g', Keeps.refl hI, ih r (hp.2 r) s'' g' hI (hA hAs hr hI)⟩
  | unfinished => exact unfinished

end Triple

end Rely

/-! ## Soundness -/

section Soundness

variable {T γ : Type} {S : System T σ Op α} {M : Rely S γ}
  {Idle : T → σ → γ → Prop} {Post : T → α → σ → γ → Prop}

/-- What is known of a thread: it is idle, or it can go on to the end of its program. -/
def Rely.Known (M : Rely S γ) (Idle : T → σ → γ → Prop) (Post : T → α → σ → γ → Prop) (h : T)
    (p : Option (Prog Op α)) (s : σ) (g : γ) : Prop :=
  match p with
  | none => Idle h s g
  | some p => M.wp h p (Post h) s g

/-- What is known of a thread stays true while the others move. -/
theorem Rely.Known.stable (hidle : ∀ h, M.Stable h (Idle h)) {h : T} {p : Option (Prog Op α)}
    {s s' : σ} {g g' : γ} (hk : M.Known Idle Post h p s g) (hr : M.Rel h s g s' g')
    (hI : M.Inv s' g') : M.Known Idle Post h p s' g' := by
  cases p with
  | none => exact hidle h hk hr hI
  | some p => exact wp_stable hk hr

/-- **The invariant rule for interleavings.** When the start of the system, the start of
a program and its end keep the invariant and what the other threads count on, and each
program is verified on its own, then every state reached satisfies the invariant. -/
theorem Rely.inv [DecidableEq T] (M : Rely S γ) (Idle : T → σ → γ → Prop)
    (Post : T → α → σ → γ → Prop) (hidle : ∀ h, M.Stable h (Idle h))
    (hinit : ∀ s, S.init s → ∃ g, M.Inv s g ∧ ∀ h, Idle h s g)
    (hstart : ∀ {h s g p s'}, M.Inv s g → Idle h s g → S.start h s p s' →
      ∃ g', M.Keeps h s g s' g' ∧ M.wp h p (Post h) s' g')
    (hfinish : ∀ {h s g a}, M.Inv s g → Post h a s g →
      ∃ g', M.Keeps h s g (S.finish h a s) g' ∧ Idle h (S.finish h a s) g')
    {t : Threads T σ Op α} (h : Reach S M.may t) :
    ∃ g, M.Inv t.shared g ∧ ∀ h, M.Known Idle Post h (t.prog h) t.shared g := by
  induction h with
  | init hs => exact hinit _ hs
  | @step t t' _ hstep ih =>
      obtain ⟨g, hI, hk⟩ := ih
      -- the other threads keep what is known of them
      have others {i : T} {s : σ} {g' : γ} {p : Option (Prog Op α)} (hK : M.Keeps i t.shared g s g')
          (hp : M.Known Idle Post i p s g') :
          ∃ g, M.Inv s g ∧ ∀ h, M.Known Idle Post h (Function.update t.prog i p h) s g := by
        refine ⟨g', hK.1, fun k => ?_⟩
        by_cases hki : k = i
        · rw [hki, Function.update_self]
          exact hp
        · rw [Function.update_of_ne hki]
          exact (hk k).stable hidle (hK.2 k hki) hK.1
      cases hstep with
      | @start i p s hp hs =>
          have hidle' := hk i
          rw [hp] at hidle'
          obtain ⟨g', hK, hw⟩ := hstart hI hidle' hs
          exact others hK hw
      | @access i R o k r s hp hm hs =>
          have hw := hk i
          rw [hp] at hw
          obtain ⟨g', hK, hw'⟩ := hw t.shared g (M.refl i _ _) hI hm r s hs
          exact others hK hw'
      | @finish i a hp =>
          have hw := hk i
          rw [hp] at hw
          obtain ⟨g', hK, hi⟩ := hfinish hI (hw t.shared g (M.refl i _ _) hI)
          exact others hK hi

end Soundness

end Interleave
