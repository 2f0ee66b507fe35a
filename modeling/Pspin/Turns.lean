/-
Jobs that are cut into pieces in turns.

A queue holds jobs. Serving it cuts a piece off the first job and puts what is left of the
job, if anything, behind the others. The jobs are numbered as they arrive; the pieces are
recorded with the number of their job, in the order in which they are cut.

Everything in this file is about an arbitrary type of jobs and of pieces: `piece` is what is
cut off a job and `rest` what is left.
-/
import Mathlib.Algebra.Order.Ring.Nat
import Mathlib.Data.List.Count
import Mathlib.Data.List.Nodup
import Mathlib.Tactic.Common

set_option autoImplicit false

namespace Turns

variable {α β : Type*} (piece : α → β) (rest : α → Option α)

/-- The pieces cut off a job so far, and what is left of it. -/
inductive Pieces (a : α) : List β → Option α → Prop
  | start : Pieces a [] (some a)
  | cut {bs : List β} {a' : α} (h : Pieces a bs (some a')) :
      Pieces a (bs ++ [piece a']) (rest a')

/-- The pieces of job `c`. -/
def piecesOf (issued : List (ℕ × β)) (c : ℕ) : List β :=
  (issued.filter fun q => q.1 == c).map Prod.snd

/-- Every job that was accepted is either in the queue, with what is left of it, or cut up. -/
structure Served (accepted : List α) (queue : List (ℕ × α)) (issued : List (ℕ × β)) : Prop where
  nodup : (queue.map Prod.fst).Nodup
  queue_lt : ∀ q ∈ queue, q.1 < accepted.length
  issued_lt : ∀ q ∈ issued, q.1 < accepted.length
  waiting : ∀ q ∈ queue, ∀ a, accepted[q.1]? = some a →
    Pieces piece rest a (piecesOf issued q.1) (some q.2)
  done : ∀ c a, accepted[c]? = some a → c ∉ queue.map Prod.fst →
    Pieces piece rest a (piecesOf issued c) none

variable {piece rest} {accepted : List α} {queue : List (ℕ × α)} {issued : List (ℕ × β)}

theorem piecesOf_append (issued issued' : List (ℕ × β)) (c : ℕ) :
    piecesOf (issued ++ issued') c = piecesOf issued c ++ piecesOf issued' c := by
  rw [piecesOf, List.filter_append, List.map_append]
  rfl

theorem piecesOf_self (c : ℕ) (b : β) : piecesOf [(c, b)] c = [b] := by
  rw [piecesOf, List.filter_singleton, beq_self_eq_true]
  rfl

theorem piecesOf_ne {c c' : ℕ} (h : c' ≠ c) (b : β) : piecesOf [(c', b)] c = [] := by
  rw [piecesOf, List.filter_singleton, beq_eq_false_iff_ne.mpr h]
  rfl

theorem piecesOf_eq_nil {c : ℕ} (h : ∀ q ∈ issued, q.1 ≠ c) : piecesOf issued c = [] := by
  rw [piecesOf, List.map_eq_nil_iff, List.filter_eq_nil_iff]
  intro q hq hc
  exact h q hq (beq_iff_eq.mp hc)

theorem Served.empty : Served piece rest [] [] [] :=
  ⟨List.nodup_nil, by simp, by simp, by simp, by simp⟩

/-- A new job. -/
theorem Served.accept (h : Served piece rest accepted queue issued) (a : α) :
    Served piece rest (accepted ++ [a]) (queue ++ [(accepted.length, a)]) issued := by
  have hnew : ∀ q ∈ queue, q.1 ≠ accepted.length := fun q hq => (h.queue_lt q hq).ne
  have hold : ∀ {c : ℕ} {b : α}, c < accepted.length →
      (accepted ++ [a])[c]? = some b → accepted[c]? = some b := by
    intro c b hc hb
    rwa [List.getElem?_append_left hc] at hb
  have hlt : ∀ {c : ℕ} {b : α}, (accepted ++ [a])[c]? = some b → c < accepted.length + 1 := by
    intro c b hb
    obtain ⟨hc, -⟩ := List.getElem?_eq_some_iff.mp hb
    rwa [List.length_append, List.length_singleton] at hc
  refine ⟨?_, ?_, ?_, ?_, ?_⟩
  · rw [List.map_append, List.map_singleton]
    refine List.nodup_append.mpr ⟨h.nodup, List.nodup_singleton _, ?_⟩
    intro c hc c' hc' heq
    obtain ⟨q, hq, rfl⟩ := List.mem_map.mp hc
    exact hnew q hq (heq.trans (List.mem_singleton.mp hc'))
  · intro q hq
    rw [List.length_append, List.length_singleton]
    rcases List.mem_append.mp hq with hq | hq
    · exact Nat.lt_succ_of_lt (h.queue_lt q hq)
    · rw [List.mem_singleton.mp hq]
      exact Nat.lt_succ_self _
  · intro q hq
    rw [List.length_append, List.length_singleton]
    exact Nat.lt_succ_of_lt (h.issued_lt q hq)
  · intro q hq b hb
    rcases List.mem_append.mp hq with hq | hq
    · exact h.waiting q hq b (hold (h.queue_lt q hq) hb)
    · -- nothing was cut off the new job
      obtain rfl := List.mem_singleton.mp hq
      rw [List.getElem?_append_right (le_refl _), Nat.sub_self] at hb
      obtain rfl : a = b := Option.some.inj hb
      rw [piecesOf_eq_nil fun q hq => (h.issued_lt q hq).ne]
      exact .start
  · intro c b hb hc
    rw [List.map_append, List.mem_append, List.map_singleton, List.mem_singleton, not_or] at hc
    have hclt := hlt hb
    exact h.done c b (hold (by omega) hb) hc.1

/-- The other jobs wait elsewhere in the queue. -/
theorem Served.first_ne {c : ℕ} {a : α} (h : Served piece rest accepted ((c, a) :: queue) issued) :
    ∀ q ∈ queue, c ≠ q.1 := by
  have hnodup := h.nodup
  rw [List.map_cons, List.nodup_cons] at hnodup
  intro q hq heq
  exact hnodup.1 (List.mem_map.mpr ⟨q, hq, heq.symm⟩)

/-- The first job behind the others waits once, and so does each of them. -/
theorem Served.nodup_serve {c : ℕ} {a : α}
    (h : Served piece rest accepted ((c, a) :: queue) issued) :
    ((queue ++ ((rest a).map fun a' => (c, a')).toList).map (·.1)).Nodup := by
  have hnodup := h.nodup
  rw [List.map_cons, List.nodup_cons] at hnodup
  rw [List.map_append]
  refine List.nodup_append.mpr ⟨hnodup.2, ?_, ?_⟩
  · cases rest a with
    | none => exact List.nodup_nil
    | some a' => exact List.nodup_singleton _
  · intro c' hc' c'' hc'' heq
    obtain ⟨q, hq, rfl⟩ := List.mem_map.mp hc'
    -- the number that goes back to the end was the first one
    cases hrest : rest a with
    | none =>
      rw [hrest] at hc''
      exact absurd hc'' (by simp)
    | some a' =>
      rw [hrest] at hc''
      exact h.first_ne q hq ((List.mem_singleton.mp hc'').symm.trans heq.symm)

/-- **Serving the first job.** -/
theorem Served.serve {c : ℕ} {a : α} (h : Served piece rest accepted ((c, a) :: queue) issued) :
    Served piece rest accepted (queue ++ ((rest a).map fun a' => (c, a')).toList)
      (issued ++ [(c, piece a)]) := by
  have hfirst := h.waiting (c, a) List.mem_cons_self
  -- the pieces of the first job, and of the others
  have hcut : ∀ b, accepted[c]? = some b →
      Pieces piece rest b (piecesOf (issued ++ [(c, piece a)]) c) (rest a) := by
    intro b hb
    rw [piecesOf_append, piecesOf_self]
    exact .cut (hfirst b hb)
  have hother : ∀ {c' : ℕ}, c ≠ c' →
      piecesOf (issued ++ [(c, piece a)]) c' = piecesOf issued c' := by
    intro c' hc'
    rw [piecesOf_append, piecesOf_ne hc', List.append_nil]
  have hlt : c < accepted.length := h.queue_lt (c, a) List.mem_cons_self
  refine ⟨h.nodup_serve, ?_, ?_, ?_, ?_⟩
  · intro q hq
    rcases List.mem_append.mp hq with hq | hq
    · exact h.queue_lt q (List.mem_cons_of_mem _ hq)
    · obtain ⟨a', -, rfl⟩ := Option.map_eq_some_iff.mp (Option.mem_toList.mp hq)
      exact hlt
  · intro q hq
    rcases List.mem_append.mp hq with hq | hq
    · exact h.issued_lt q hq
    · rw [List.mem_singleton.mp hq]
      exact hlt
  · intro q hq b hb
    rcases List.mem_append.mp hq with hq | hq
    · rw [hother (h.first_ne q hq)]
      exact h.waiting q (List.mem_cons_of_mem _ hq) b hb
    · obtain ⟨a', hrest, rfl⟩ := Option.map_eq_some_iff.mp (Option.mem_toList.mp hq)
      rw [← hrest]
      exact hcut b hb
  · intro c' b hb hc'
    rw [List.map_append, List.mem_append, not_or] at hc'
    by_cases hsame : c = c'
    · -- the first job is not put back, so nothing is left of it
      obtain rfl := hsame
      cases hrest : rest a with
      | none =>
        rw [← hrest]
        exact hcut b hb
      | some a' =>
        rw [hrest] at hc'
        exact absurd List.mem_cons_self hc'.2
    · rw [hother hsame]
      apply h.done c' b hb
      rw [List.map_cons, List.mem_cons, not_or]
      exact ⟨fun heq => hsame heq.symm, hc'.1⟩

/-- What is cut off a job has a property that one piece has, as long as what is left has its own. -/
theorem Pieces.forall_mem {P : α → Prop} {Q : β → Prop} {a : α} {bs : List β} {left : Option α}
    (h : Pieces piece rest a bs left) (ha : P a) (hP : ∀ a, P a → ∀ a' ∈ rest a, P a')
    (hQ : ∀ a, P a → Q (piece a)) : (∀ a' ∈ left, P a') ∧ ∀ b ∈ bs, Q b := by
  induction h with
  | start =>
    refine ⟨fun a' ha' => ?_, by simp⟩
    obtain rfl := Option.mem_some_iff.mp ha'
    exact ha
  | cut h ih =>
    rename_i bs a'
    have ha' : P a' := ih.1 a' rfl
    refine ⟨hP a' ha', fun b hb => ?_⟩
    rcases List.mem_append.mp hb with hb | hb
    · exact ih.2 b hb
    · exact List.mem_singleton.mp hb ▸ hQ a' ha'

theorem Served.pieces (h : Served piece rest accepted queue issued) {c : ℕ} {a : α}
    (ha : accepted[c]? = some a) : ∃ left, Pieces piece rest a (piecesOf issued c) left := by
  by_cases hc : c ∈ queue.map Prod.fst
  · obtain ⟨q, hq, rfl⟩ := List.mem_map.mp hc
    exact ⟨some q.2, h.waiting q hq a ha⟩
  · exact ⟨none, h.done c a ha hc⟩

/-- A piece that was issued is one of its job. -/
theorem mem_piecesOf {q : ℕ × β} (hq : q ∈ issued) : q.2 ∈ piecesOf issued q.1 :=
  List.mem_map_of_mem (List.mem_filter.mpr ⟨hq, beq_self_eq_true _⟩)

/-! ## The numbers beside the queue -/

/-- The numbers of the jobs in a list of their own, and a property of all jobs. -/
structure Ledger (piece : α → β) (rest : α → Option α) (P : α → Prop) (accepted : List α)
    (owners : List ℕ) (queue : List α) (issued : List (ℕ × β)) : Prop where
  length : owners.length = queue.length
  served : Served piece rest accepted (owners.zip queue) issued
  accepted_all : ∀ a ∈ accepted, P a
  queue_all : ∀ a ∈ queue, P a

namespace Ledger

variable {P : α → Prop} {owners : List ℕ} {jobs : List α} {c : ℕ} {a : α}

theorem empty : Ledger piece rest P [] [] [] [] := ⟨rfl, Served.empty, by simp, by simp⟩

theorem queued (h : Ledger piece rest P accepted owners jobs issued) :
    (owners.zip jobs).map Prod.fst = owners :=
  List.map_fst_zip h.length.le

theorem accept (h : Ledger piece rest P accepted owners jobs issued) (ha : P a) :
    Ledger piece rest P (accepted ++ [a]) (owners ++ [accepted.length]) (jobs ++ [a]) issued := by
  have happend : ∀ {l : List α}, (∀ b ∈ l, P b) → ∀ b ∈ l ++ [a], P b := by
    intro l hl b hb
    rcases List.mem_append.mp hb with hb | hb
    · exact hl b hb
    · exact List.mem_singleton.mp hb ▸ ha
  refine ⟨?_, ?_, happend h.accepted_all, happend h.queue_all⟩
  · rw [List.length_append, List.length_append, h.length]
    rfl
  · rw [List.zip_append h.length]
    exact h.served.accept a

/-- What is left of the first job goes to the end of the queue, with its number. -/
theorem serve (h : Ledger piece rest P accepted (c :: owners) (a :: jobs) issued)
    (hP : ∀ a, P a → ∀ a' ∈ rest a, P a') :
    Ledger piece rest P accepted (owners ++ ((rest a).map fun _ => c).toList)
      (jobs ++ (rest a).toList) (issued ++ [(c, piece a)]) := by
  have hlength : owners.length = jobs.length := Nat.succ.inj h.length
  obtain ⟨ha, hjobs⟩ := List.forall_mem_cons.mp h.queue_all
  have hserved := h.served.serve
  refine ⟨?_, ?_, h.accepted_all, ?_⟩
  · rw [List.length_append, List.length_append, hlength]
    cases rest a <;> rfl
  · rw [List.zip_append hlength]
    cases hleft : rest a with
    | none =>
      rw [hleft] at hserved
      exact hserved
    | some a' =>
      rw [hleft] at hserved
      exact hserved
  · intro b hb
    rcases List.mem_append.mp hb with hb | hb
    · exact hjobs b hb
    · exact hP a ha b (Option.mem_toList.mp hb)

end Ledger

/-! ## Emptying the queue -/

/-- The pieces that the queue is good for, by a measure of the jobs. -/
def work (size : α → ℕ) (jobs : List α) : ℕ := (jobs.map fun a => size a + 1).sum

/-- Serving is progress when what is left of a job is smaller than the job. -/
theorem work_serve {size : α → ℕ} {a : α} (hrest : ∀ a' ∈ rest a, size a' < size a)
    (jobs : List α) : work size (jobs ++ (rest a).toList) < work size (a :: jobs) := by
  cases hleft : rest a with
  | none => simp [work]
  | some a' =>
    have hlt : size a' < size a := hrest a' hleft
    simp [work]
    omega

/-! ## The last piece

When `last` marks exactly the pieces after which nothing is left, a job has at most one of
them, and no piece after it. -/

section Last

variable {last : β → Bool}

/-- The jobs whose last piece was issued, in order. -/
def finished (last : β → Bool) (issued : List (ℕ × β)) : List ℕ :=
  (issued.filter fun q => last q.2).map Prod.fst

theorem count_finished (issued : List (ℕ × β)) (c : ℕ) :
    (finished last issued).count c = (piecesOf issued c).countP last := by
  rw [finished, piecesOf, List.count, List.countP_map, List.countP_filter, List.countP_map,
    List.countP_filter]
  congr 1
  funext q
  exact Bool.and_comm _ _

theorem mem_finished {c : ℕ} : c ∈ finished last issued ↔ ∃ b ∈ piecesOf issued c, last b = true := by
  rw [← List.count_pos_iff, count_finished, List.countP_pos_iff]

/-- The marks on the pieces of a job. -/
theorem Pieces.marked {P : α → Prop} {a : α} {bs : List β} {left : Option α}
    (h : Pieces piece rest a bs left) (ha : P a) (hP : ∀ a, P a → ∀ a' ∈ rest a, P a')
    (hlast : ∀ a, P a → (last (piece a) = true ↔ rest a = none)) :
    (left ≠ none → bs.countP last = 0)
      ∧ (left = none → ∃ init b, bs = init ++ [b] ∧ last b = true ∧ init.countP last = 0) := by
  induction h with
  | start => exact ⟨fun _ => rfl, fun hno => absurd hno (by simp)⟩
  | cut h ih =>
    rename_i bs a'
    have hbs : bs.countP last = 0 := ih.1 (by simp)
    have ha' : P a' := (h.forall_mem (Q := fun _ => True) ha hP fun _ _ => trivial).1 a' rfl
    constructor
    · intro hleft
      rw [List.countP_append, hbs, List.countP_singleton, if_neg fun hl => hleft ((hlast a' ha').mp hl)]
    · intro hnone
      exact ⟨bs, piece a', rfl, (hlast a' ha').mpr hnone, hbs⟩

variable {P : α → Prop} {l l' : List (ℕ × β)}

/-- The marks on the pieces of an accepted job. -/
theorem Served.marked (h : Served piece rest accepted queue issued) (hacc : ∀ a ∈ accepted, P a)
    (hP : ∀ a, P a → ∀ a' ∈ rest a, P a')
    (hlast : ∀ a, P a → (last (piece a) = true ↔ rest a = none)) {c : ℕ} (hc : c < accepted.length) :
    (c ∈ queue.map Prod.fst → (piecesOf issued c).countP last = 0)
      ∧ (c ∉ queue.map Prod.fst →
        ∃ init b, piecesOf issued c = init ++ [b] ∧ last b = true ∧ init.countP last = 0) := by
  have ha : accepted[c]? = some accepted[c] := List.getElem?_eq_getElem hc
  have hPa : P accepted[c] := hacc _ (List.getElem_mem hc)
  constructor
  · intro hc'
    obtain ⟨q, hq, rfl⟩ := List.mem_map.mp hc'
    exact ((h.waiting q hq _ ha).marked hPa hP hlast).1 (by simp)
  · intro hq
    exact ((h.done c _ ha hq).marked hPa hP hlast).2 rfl

/-- **No job is finished twice.** -/
theorem Served.finished_nodup (h : Served piece rest accepted queue (l ++ l'))
    (hacc : ∀ a ∈ accepted, P a) (hP : ∀ a, P a → ∀ a' ∈ rest a, P a')
    (hlast : ∀ a, P a → (last (piece a) = true ↔ rest a = none)) : (finished last l).Nodup := by
  rw [List.nodup_iff_count_le_one]
  intro c
  by_cases hc : c < accepted.length
  · have hle : (finished last l).count c ≤ (piecesOf (l ++ l') c).countP last := by
      rw [count_finished, piecesOf_append, List.countP_append]
      exact Nat.le_add_right _ _
    refine hle.trans ?_
    obtain ⟨hwaiting, hdone⟩ := h.marked hacc hP hlast hc
    by_cases hq : c ∈ queue.map Prod.fst
    · rw [hwaiting hq]
      exact Nat.zero_le 1
    · obtain ⟨init, b, hpieces, -, hinit⟩ := hdone hq
      rw [hpieces, List.countP_append, hinit, Nat.zero_add]
      exact List.countP_le_length
  · -- there is no such job
    have hno : ∀ q ∈ l, q.1 ≠ c := by
      rintro q hq rfl
      exact hc (h.issued_lt q (List.mem_append_left l' hq))
    rw [count_finished, piecesOf_eq_nil hno]
    exact Nat.zero_le 1

/-- **A finished job is cut up**, and all its pieces are there. -/
theorem Served.finished_whole (h : Served piece rest accepted queue (l ++ l'))
    (hacc : ∀ a ∈ accepted, P a) (hP : ∀ a, P a → ∀ a' ∈ rest a, P a')
    (hlast : ∀ a, P a → (last (piece a) = true ↔ rest a = none)) {c : ℕ} {a : α}
    (ha : accepted[c]? = some a) (hc : c ∈ finished last l) :
    c ∉ queue.map Prod.fst ∧ piecesOf l' c = [] ∧ Pieces piece rest a (piecesOf l c) none := by
  obtain ⟨hlt, -⟩ := List.getElem?_eq_some_iff.mp ha
  obtain ⟨hwaiting, hdone⟩ := h.marked hacc hP hlast hlt
  have hpos : 0 < (piecesOf l c).countP last := List.countP_pos_iff.mpr (mem_finished.mp hc)
  rw [piecesOf_append] at hwaiting hdone
  have hq : c ∉ queue.map Prod.fst := by
    intro hq
    have hzero := hwaiting hq
    rw [List.countP_append] at hzero
    omega
  have hnil : piecesOf l' c = [] := by
    -- a piece after the marked one would be the last
    obtain ⟨init, b, hpieces, -, hinit⟩ := hdone hq
    by_contra hne
    obtain ⟨ys, y, hys⟩ := List.eq_nil_or_concat (piecesOf l' c) |>.resolve_left hne
    rw [hys, List.concat_eq_append, ← List.append_assoc] at hpieces
    obtain ⟨hpre, -⟩ := List.append_inj' hpieces rfl
    rw [← hpre, List.countP_append] at hinit
    omega
  have hpieces := h.done c a ha hq
  rw [piecesOf_append, hnil, List.append_nil] at hpieces
  exact ⟨hq, hnil, hpieces⟩

/-- When the queue is empty, all jobs are finished. -/
theorem Served.finished_all (h : Served piece rest accepted [] issued)
    (hacc : ∀ a ∈ accepted, P a) (hP : ∀ a, P a → ∀ a' ∈ rest a, P a')
    (hlast : ∀ a, P a → (last (piece a) = true ↔ rest a = none)) {c : ℕ} (hc : c < accepted.length) :
    c ∈ finished last issued := by
  obtain ⟨init, b, hpieces, hb, -⟩ := (h.marked hacc hP hlast hc).2 (by simp)
  rw [mem_finished, hpieces]
  exact ⟨b, List.mem_append_right init List.mem_cons_self, hb⟩

end Last

end Turns
