/-
Linked lists that end in a null link.

`Path nxt fin a l` reads the list `l` off the links from `a` on, up to the null link
`fin`. The list is determined by the links, has no cell twice, and may be empty.

What list code does to it is to put a new rest behind one of its cells
(`Path.replace`): to insert a cell or to remove one is a case of this. Cells that are
not on the path may change freely (`Path.frame`).
-/
import Mathlib.Data.List.Basic
import Mathlib.Data.List.Nodup

set_option autoImplicit false

namespace LinkedPath

variable {α : Type*} {nxt nxt' : α → α} {fin : α}

/-- The cells from `a` up to the null link `fin` are `l`. -/
def Path (nxt : α → α) (fin : α) : α → List α → Prop
  | a, [] => a = fin
  | a, b :: l => a = b ∧ b ≠ fin ∧ Path nxt fin (nxt b) l

namespace Path

theorem ne_fin {a c : α} {l : List α} (h : Path nxt fin a l) (hc : c ∈ l) : c ≠ fin := by
  induction l generalizing a with
  | nil => exact absurd hc (List.not_mem_nil)
  | cons b l ih =>
      obtain ⟨-, hb, ht⟩ := h
      rcases List.mem_cons.mp hc with rfl | hc
      · exact hb
      · exact ih ht hc

/-- A path reads only its own links. -/
theorem frame {a : α} {l : List α} (h : Path nxt fin a l) (hn : ∀ c ∈ l, nxt' c = nxt c) :
    Path nxt' fin a l := by
  induction l generalizing a with
  | nil => exact h
  | cons b l ih =>
      obtain ⟨ha, hb, ht⟩ := h
      refine ⟨ha, hb, ?_⟩
      rw [hn b (List.mem_cons_self)]
      exact ih ht fun c hc => hn c (List.mem_cons_of_mem b hc)

/-- The rest of a path, from one of its cells. -/
theorem drop {a b : α} {l r : List α} (h : Path nxt fin a (l ++ b :: r)) :
    Path nxt fin b (b :: r) := by
  induction l generalizing a with
  | nil => exact ⟨rfl, h.2⟩
  | cons c l ih => exact ih h.2.2

theorem rest {a b : α} {l r : List α} (h : Path nxt fin a (l ++ b :: r)) :
    Path nxt fin (nxt b) r :=
  h.drop.2.2

/-- A cell points to the one after it. -/
theorem next {a b c : α} {l r : List α} (h : Path nxt fin a (l ++ b :: c :: r)) : nxt b = c :=
  h.rest.1

theorem next_mem {a b : α} {l : List α} (h : Path nxt fin a l) (hb : b ∈ l) (hn : nxt b ≠ fin) :
    nxt b ∈ l := by
  obtain ⟨X, Y, rfl⟩ := List.append_of_mem hb
  cases Y with
  | nil => exact absurd h.rest hn
  | cons c Y => simp [h.next]

/-- A new rest behind the cell `b`. The cells before `b` keep their links. -/
theorem replace {a b : α} {l r r' : List α} (h : Path nxt fin a (l ++ b :: r))
    (hn : ∀ c ∈ l, nxt' c = nxt c) (hr : Path nxt' fin (nxt' b) r') :
    Path nxt' fin a (l ++ b :: r') := by
  induction l generalizing a with
  | nil => exact ⟨h.1, h.2.1, hr⟩
  | cons c l ih =>
      obtain ⟨ha, hc, ht⟩ := h
      refine ⟨ha, hc, ?_⟩
      rw [hn c (List.mem_cons_self)]
      exact ih ht fun d hd => hn d (List.mem_cons_of_mem c hd)

/-- The links determine the list. -/
theorem unique {a : α} {l l' : List α} (h : Path nxt fin a l) (h' : Path nxt fin a l') :
    l = l' := by
  induction l generalizing a l' with
  | nil =>
      cases l' with
      | nil => rfl
      | cons b l' => exact absurd (h'.1.symm.trans h) h'.2.1
  | cons b l ih =>
      obtain ⟨rfl, hb, ht⟩ := h
      cases l' with
      | nil => exact absurd h' hb
      | cons c l' =>
          obtain ⟨rfl, -, ht'⟩ := h'
          rw [ih ht ht']

theorem nodup {a : α} {l : List α} (h : Path nxt fin a l) : l.Nodup := by
  induction l generalizing a with
  | nil => exact List.nodup_nil
  | cons b l ih =>
      refine List.nodup_cons.mpr ⟨fun hb => ?_, ih h.2.2⟩
      -- the rest of the path from the second `b` would be the whole path
      obtain ⟨s, t, rfl⟩ := List.append_of_mem hb
      have hlen := congrArg List.length (h.drop (l := []) |>.unique (h.2.2.drop))
      simp only [List.length_cons, List.length_append] at hlen
      omega

/-! ## Stores to links -/

section Update

variable [DecidableEq α] {a p c v : α} {l r : List α}

/-- A store to a cell that is not on the path. -/
theorem update_of_notMem (h : Path nxt fin a l) (hc : c ∉ l) :
    Path (Function.update nxt c v) fin a l :=
  h.frame fun _ hd => Function.update_of_ne (ne_of_mem_of_not_mem hd hc) v nxt

/-- A cell put in front of a path. -/
theorem push (h : Path nxt fin a l) (hc : c ∉ l) (hfin : c ≠ fin) :
    Path (Function.update nxt c a) fin c (c :: l) := by
  refine ⟨rfl, hfin, ?_⟩
  rw [Function.update_self]
  exact h.update_of_notMem hc

/-- The cell behind `p` taken out. -/
theorem remove (h : Path nxt fin a (l ++ p :: c :: r)) :
    Path (Function.update nxt p (nxt c)) fin a (l ++ p :: r) := by
  have hd := h.nodup
  rw [List.nodup_append] at hd
  refine h.replace (fun d hd' => Function.update_of_ne (hd.2.2 d hd' p List.mem_cons_self) _ _) ?_
  have hpr : p ∉ r := fun hp => (List.nodup_cons.mp hd.2.1).1 (List.mem_cons_of_mem c hp)
  rw [Function.update_self]
  exact (h.rest.2.2).update_of_notMem hpr

/-- The cell `c` put behind `p`. -/
theorem insert (h : Path nxt fin a (l ++ p :: r)) (hc : c ∉ l ++ p :: r) (hfin : c ≠ fin) :
    Path (Function.update (Function.update nxt c (nxt p)) p c) fin a (l ++ p :: c :: r) := by
  have hd := h.nodup
  rw [List.nodup_append] at hd
  simp only [List.mem_append, List.mem_cons, not_or] at hc
  refine h.replace (fun d hd' => ?_) ?_
  · rw [Function.update_of_ne (hd.2.2 d hd' p List.mem_cons_self),
      Function.update_of_ne (ne_of_mem_of_not_mem hd' hc.1)]
  · have hpr : p ∉ c :: r := by
      rw [List.mem_cons, not_or]
      exact ⟨Ne.symm hc.2.1, (List.nodup_cons.mp hd.2.1).1⟩
    rw [Function.update_self]
    exact (h.rest.push hc.2.2 hfin).update_of_notMem hpr

end Update

end Path

end LinkedPath
