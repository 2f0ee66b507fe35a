/-
Counting answers to requests that consist of several parts.

A queue of counts, the parts that each request still waits for, is read as a list of
marks, one for each part to come: `true` at the last part of a request. An answer that
comes in order takes the first mark, which says whether it completes the first request.

`Outstanding` relates all requests so far and the number of answers to the parts that are
still to come; `completed` is the number of requests that are complete.
-/
import Mathlib.Algebra.BigOperators.Group.List.Basic
import Mathlib.Algebra.Order.BigOperators.Group.List
import Mathlib.Algebra.Order.Ring.Nat
import Mathlib.Data.List.Basic

set_option autoImplicit false

namespace BurstMarks

/-- The marks of one request of `n` parts. -/
def mark (n : ℕ) : List Bool := List.replicate (n - 1) false ++ [true]

def marks (ns : List ℕ) : List Bool := ns.flatMap mark

theorem marks_append (ns ms : List ℕ) : marks (ns ++ ms) = marks ns ++ marks ms :=
  List.flatMap_append

theorem marks_singleton (n : ℕ) : marks [n] = mark n := List.flatMap_singleton mark n

theorem length_mark {n : ℕ} (hn : 0 < n) : (mark n).length = n := by
  rw [mark, List.length_append, List.length_replicate, List.length_singleton]
  omega

theorem length_marks {ns : List ℕ} (hpos : ∀ n ∈ ns, 0 < n) : (marks ns).length = ns.sum := by
  induction ns with
  | nil => rfl
  | cons n ns ih =>
    obtain ⟨hn, hns⟩ := List.forall_mem_cons.mp hpos
    rw [marks, List.flatMap_cons, List.length_append, length_mark hn, List.sum_cons]
    exact congrArg (n + ·) (ih hns)

/-- The last part of the first request. -/
theorem marks_one (ns : List ℕ) : marks (1 :: ns) = true :: marks ns := rfl

/-- A part of the first request that is not its last one. -/
theorem marks_succ {n : ℕ} (hn : 0 < n) (ns : List ℕ) :
    marks ((n + 1) :: ns) = false :: marks (n :: ns) := by
  obtain ⟨m, rfl⟩ := Nat.exists_eq_add_of_lt hn
  rw [Nat.zero_add]
  rfl

/-- An answer takes the first mark, and a part off the first count. -/
theorem marks_cons {n : ℕ} (hn : 0 < n) (ns : List ℕ) :
    marks (n :: ns) = decide (n = 1) :: marks (if n = 1 then ns else (n - 1) :: ns) := by
  by_cases hone : n = 1
  · rw [decide_eq_true hone, if_pos hone, hone, marks_one]
  · obtain ⟨m, rfl⟩ := Nat.exists_eq_add_of_lt (by omega : 1 < n)
    rw [decide_eq_false hone, if_neg hone, Nat.add_sub_cancel, marks_succ (by omega)]

/-- The last part of all completes a request. -/
theorem marks_concat {ns : List ℕ} (hne : ns ≠ []) : ∃ l, marks ns = l ++ [true] := by
  obtain ⟨ms, n, rfl⟩ := (List.eq_nil_or_concat ns).resolve_left hne
  refine ⟨marks ms ++ List.replicate (n - 1) false, ?_⟩
  rw [List.concat_eq_append, marks_append, marks_singleton, mark, List.append_assoc]

/-- Which part of a request is the last. -/
theorem mark_eq_map {n : ℕ} (hn : 0 < n) :
    mark n = (List.range n).map fun q => decide (q + 1 = n) := by
  obtain ⟨m, rfl⟩ := Nat.exists_eq_add_of_lt hn
  rw [Nat.zero_add, List.range_succ, List.map_append, mark, Nat.add_sub_cancel]
  congr 1
  · symm
    rw [List.eq_replicate_iff]
    refine ⟨by simp, fun x hx => ?_⟩
    obtain ⟨i, hi, rfl⟩ := List.mem_map.mp hx
    have hlt := List.mem_range.mp hi
    simp only [decide_eq_false_iff_not]
    omega
  · simp

theorem count_mark (n : ℕ) : (mark n).count true = 1 := by
  rw [mark, List.count_append, List.count_replicate]
  rfl

theorem count_marks (ns : List ℕ) : (marks ns).count true = ns.length := by
  induction ns with
  | nil => rfl
  | cons n ns ih =>
    rw [marks, List.flatMap_cons, List.count_append, count_mark, List.length_cons, Nat.add_comm]
    exact congrArg (· + 1) ih

/-- Before the last part of a request none is complete. -/
theorem take_mark {n r : ℕ} (h : r < n) : (mark n).take r = List.replicate r false := by
  rw [mark, List.take_append_of_le_length (by rw [List.length_replicate]; omega),
    List.take_replicate, Nat.min_eq_left (by omega)]

/-- **When a request is complete.** The first `k` requests are complete after `r` answers
exactly when their parts are at most `r`. -/
theorem le_count_iff {ns : List ℕ} (hpos : ∀ n ∈ ns, 0 < n) :
    ∀ {r k : ℕ}, k ≤ ns.length →
      (k ≤ ((marks ns).take r).count true ↔ (ns.take k).sum ≤ r) := by
  induction ns with
  | nil =>
    intro r k hk
    obtain rfl : k = 0 := Nat.le_zero.mp hk
    exact iff_of_true (Nat.zero_le _) (Nat.zero_le _)
  | cons n ns ih =>
    intro r k hk
    obtain ⟨hn, hns⟩ := List.forall_mem_cons.mp hpos
    cases k with
    | zero => exact iff_of_true (Nat.zero_le _) (Nat.zero_le _)
    | succ k =>
      have hk' : k ≤ ns.length := Nat.le_of_succ_le_succ hk
      have hsum : ((n :: ns).take (k + 1)).sum = n + (ns.take k).sum := by
        rw [List.take_succ_cons, List.sum_cons]
      have hmarks : marks (n :: ns) = mark n ++ marks ns := List.flatMap_cons
      rw [hsum, hmarks]
      by_cases hr : r < n
      · -- the first request is not complete
        have hlen := length_mark hn
        rw [List.take_append_of_le_length (by omega), take_mark hr, List.count_replicate]
        simp only [Bool.false_eq_true, beq_iff_eq]
        exact iff_of_false (by simp) (by omega)
      · -- it is, and the others have the remaining answers
        have hone := count_mark n
        obtain ⟨r', rfl⟩ := Nat.exists_eq_add_of_le (Nat.le_of_not_lt hr)
        have htake : (mark n ++ marks ns).take (n + r') = mark n ++ (marks ns).take r' := by
          rw [List.take_append, length_mark hn, List.take_of_length_le, Nat.add_sub_cancel_left]
          rw [length_mark hn]
          exact Nat.le_add_right n r'
        rw [htake, List.count_append, hone, Nat.add_comm 1, Nat.succ_le_succ_iff, ih hns hk']
        omega

/-! ## Requests and answers so far -/

/-- The requests that `r` answers complete. -/
def completed (ns : List ℕ) (r : ℕ) : ℕ := ((marks ns).take r).count true

theorem completed_le (ns : List ℕ) (r : ℕ) : completed ns r ≤ ns.length := by
  rw [completed, ← count_marks ns]
  exact (List.take_sublist r (marks ns)).count_le true

/-- Requests that are added later do not count yet. -/
theorem completed_append {ns : List ℕ} {r : ℕ} (h : r ≤ (marks ns).length) {ms : List ℕ} :
    completed (ns ++ ms) r = completed ns r := by
  rw [completed, marks_append, List.take_append_of_le_length h]
  rfl

/-- The next answer completes a request when its mark says so. -/
theorem completed_succ {ns : List ℕ} {r : ℕ} {m : Bool} (h : (marks ns)[r]? = some m) :
    completed ns (r + 1) = completed ns r + if m then 1 else 0 := by
  obtain ⟨hlt, hm⟩ := List.getElem?_eq_some_iff.mp h
  rw [completed, List.take_succ_eq_append_getElem hlt, hm, List.count_append]
  cases m <;> rfl

/-- Numbers below a bound are equal when the same ones are at most each of them. -/
theorem eq_of_le_iff {a b n : ℕ} (ha : a ≤ n) (hb : b ≤ n) (h : ∀ k ≤ n, k ≤ a ↔ k ≤ b) :
    a = b :=
  Nat.le_antisymm ((h a ha).mp (le_refl a)) ((h b hb).mpr (le_refl b))

/-- **Requests of requests.** When each request consists of requests of its own, the same
ones are complete whether the inner parts are counted or the inner requests. -/
theorem completed_flatten (nss : List (List ℕ)) (hne : ∀ ns ∈ nss, ns ≠ [])
    (hpos : ∀ ns ∈ nss, ∀ n ∈ ns, 0 < n) (r : ℕ) :
    completed (nss.map List.length) (completed nss.flatten r) = completed (nss.map List.sum) r := by
  have hlen : ∀ n ∈ nss.map List.length, 0 < n := by
    intro n hn
    obtain ⟨ns, hns, rfl⟩ := List.mem_map.mp hn
    exact List.length_pos_of_ne_nil (hne ns hns)
  have hsum : ∀ n ∈ nss.map List.sum, 0 < n := by
    intro n hn
    obtain ⟨ns, hns, rfl⟩ := List.mem_map.mp hn
    obtain ⟨m, hm⟩ := List.exists_mem_of_ne_nil ns (hne ns hns)
    exact (hpos ns hns m hm).trans_le (List.le_sum_of_mem hm)
  have hflat : ∀ n ∈ nss.flatten, 0 < n := by
    intro n hn
    obtain ⟨ns, hns, hn⟩ := List.mem_flatten.mp hn
    exact hpos ns hns n hn
  have hcount : (nss.map List.length).length = nss.length := List.length_map _
  have hcount' : (nss.map List.sum).length = nss.length := List.length_map _
  refine eq_of_le_iff (hcount ▸ completed_le _ _) (hcount' ▸ completed_le _ _) fun k hk => ?_
  -- both count the parts of the first `k` requests
  have hinner : ((nss.map List.length).take k).sum ≤ nss.flatten.length := by
    rw [List.length_flatten, ← List.sum_take_add_sum_drop (nss.map List.length) k]
    exact Nat.le_add_right _ _
  have hparts : (nss.flatten.take ((nss.map List.length).take k).sum).sum
      = ((nss.map List.sum).take k).sum := by
    rw [List.take_sum_flatten, ← List.map_take, List.sum_flatten]
  rw [completed, le_count_iff hlen (hcount ▸ hk), completed, le_count_iff hflat hinner, hparts,
    completed, le_count_iff hsum (hcount' ▸ hk)]

/-- The request that each part belongs to, the first one with number `k`. -/
def owners : ℕ → List ℕ → List ℕ
  | _, [] => []
  | k, n :: ns => List.replicate n k ++ owners (k + 1) ns

theorem owners_append (ns ms : List ℕ) : ∀ k,
    owners k (ns ++ ms) = owners k ns ++ owners (k + ns.length) ms := by
  induction ns with
  | nil => exact fun k => rfl
  | cons n ns ih =>
    intro k
    rw [List.cons_append, owners, ih, owners, List.append_assoc, List.length_cons, Nat.add_assoc,
      Nat.add_comm 1]

theorem length_owners (ns : List ℕ) : ∀ k, (owners k ns).length = ns.sum := by
  induction ns with
  | nil => exact fun k => rfl
  | cons n ns ih =>
    intro k
    rw [owners, List.length_append, List.length_replicate, ih, List.sum_cons]

/-- **Whose part is answered.** After `r` answers the next part belongs to the first
request that is not complete. -/
theorem getElem_owners {ns : List ℕ} (hpos : ∀ n ∈ ns, 0 < n) : ∀ {k r : ℕ}, r < ns.sum →
    (owners k ns)[r]? = some (k + completed ns r) := by
  induction ns with
  | nil =>
    intro k r hr
    exact absurd hr (Nat.not_lt_zero r)
  | cons n ns ih =>
    intro k r hr
    obtain ⟨hn, hns⟩ := List.forall_mem_cons.mp hpos
    have hlen := length_mark hn
    have hmarks : marks (n :: ns) = mark n ++ marks ns := List.flatMap_cons
    rw [owners]
    by_cases hfirst : r < n
    · -- a part of the first request
      rw [List.getElem?_append_left (by rwa [List.length_replicate]), List.getElem?_replicate,
        if_pos hfirst, completed, hmarks, List.take_append_of_le_length (by omega), take_mark hfirst,
        List.count_replicate]
      rfl
    · -- a part of a later one
      obtain ⟨r', rfl⟩ := Nat.exists_eq_add_of_le (Nat.le_of_not_lt hfirst)
      rw [List.sum_cons] at hr
      have hlater := ih hns (k := k + 1) (r := r') (by omega)
      have hcompleted : completed (n :: ns) (n + r') = 1 + completed ns r' := by
        rw [completed, hmarks, List.take_append, hlen, Nat.add_sub_cancel_left,
          List.take_of_length_le (by omega), List.count_append, count_mark]
        rfl
      rw [List.getElem?_append_right (by rw [List.length_replicate]; omega), List.length_replicate,
        Nat.add_sub_cancel_left, hlater, hcompleted, Nat.add_assoc]

/-- Of the parts of the requests `ns`, `r` were answered and `left` are to come. -/
structure Outstanding (ns : List ℕ) (r : ℕ) (left : List ℕ) : Prop where
  pos : ∀ n ∈ ns, 0 < n
  left_pos : ∀ n ∈ left, 0 < n
  left_marks : (marks ns).drop r = marks left
  answered : r ≤ (marks ns).length

section Outstanding

variable {ns left left' : List ℕ} {r n : ℕ} {m : Bool}

theorem Outstanding.none : Outstanding [] 0 [] :=
  ⟨by simp, by simp, rfl, le_refl _⟩

/-- A request is added behind the others. -/
theorem Outstanding.request (h : Outstanding ns r left) (hn : 0 < n) :
    Outstanding (ns ++ [n]) r (left ++ [n]) ∧ completed (ns ++ [n]) r = completed ns r := by
  have hpos : ∀ {l : List ℕ}, (∀ k ∈ l, 0 < k) → ∀ k ∈ l ++ [n], 0 < k := by
    intro l hl k hk
    rcases List.mem_append.mp hk with hk | hk
    · exact hl k hk
    · exact List.mem_singleton.mp hk ▸ hn
  refine ⟨⟨hpos h.pos, hpos h.left_pos, ?_, ?_⟩, completed_append h.answered⟩
  · rw [marks_append, marks_append, List.drop_append_of_le_length h.answered, h.left_marks]
  · rw [marks_append, List.length_append]
    exact h.answered.trans (Nat.le_add_right _ _)

/-- An answer takes the first mark to come. -/
theorem Outstanding.answer (h : Outstanding ns r left) (hmarks : marks left = m :: marks left')
    (hpos : ∀ k ∈ left', 0 < k) :
    Outstanding ns (r + 1) left'
      ∧ completed ns (r + 1) = completed ns r + if m then 1 else 0 := by
  have hdrop : (marks ns).drop r = m :: marks left' := h.left_marks.trans hmarks
  obtain ⟨hlt, hm, hnext⟩ : ∃ hlt : r < (marks ns).length,
      (marks ns)[r] = m ∧ (marks ns).drop (r + 1) = marks left' := by
    have hlt : r < (marks ns).length := by
      by_contra hge
      rw [List.drop_eq_nil_of_le (Nat.le_of_not_lt hge)] at hdrop
      exact absurd hdrop (by simp)
    rw [List.drop_eq_getElem_cons hlt] at hdrop
    exact ⟨hlt, List.cons.inj hdrop⟩
  refine ⟨⟨h.pos, hpos, hnext, hlt⟩, completed_succ ?_⟩
  rw [List.getElem?_eq_getElem hlt, hm]

/-- As long as parts are to come, some request waits for one. -/
theorem Outstanding.waits (h : Outstanding ns r left) (hr : r < ns.sum) : marks left ≠ [] := by
  rw [← h.left_marks, Ne, List.drop_eq_nil_iff, length_marks h.pos]
  exact Nat.not_le_of_lt hr

/-- The requests are the complete ones and those to come. -/
theorem Outstanding.length (h : Outstanding ns r left) :
    completed ns r + left.length = ns.length := by
  rw [← count_marks left, ← h.left_marks, completed, ← List.count_append, List.take_append_drop,
    count_marks]

theorem Outstanding.le_completed_iff (h : Outstanding ns r left) {k : ℕ} (hk : k ≤ ns.length) :
    k ≤ completed ns r ↔ (ns.take k).sum ≤ r :=
  le_count_iff h.pos hk

end Outstanding

end BurstMarks
