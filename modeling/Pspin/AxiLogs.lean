/-
The logs of an AXI port, beat by beat.

`written` and `beats` read whole logs; here is what one more address or one more data beat
does to them. Data may be logged before the address that it belongs to.
-/
import Pspin.AxiIncr

set_option autoImplicit false

namespace AxiIncr

variable {D : Type*} {w i r : ℕ} {b : Burst} {bs bs' later : List Burst} {ws : List (WBeat D)} {x : WBeat D}

namespace Burst

theorem written_from_append (b : Burst) (w i : ℕ) (xs ys : List (WBeat D)) :
    b.written_from w i (xs ++ ys) = b.written_from w i xs ++ b.written_from w (i + xs.length) ys := by
  induction xs generalizing i with
  | nil => rfl
  | cons x xs ih =>
      rw [List.cons_append, written_from, written_from, ih, List.append_assoc, List.length_cons,
        Nat.add_assoc, Nat.add_comm 1]

theorem written_from_singleton (b : Burst) (w i : ℕ) (x : WBeat D) :
    b.written_from w i [x] = b.beat_written w i x := List.append_nil _

end Burst

@[simp] theorem written_nil (w : ℕ) (bs : List Burst) : written w bs ([] : List (WBeat D)) = [] := by
  induction bs with
  | nil => rfl
  | cons b bs ih =>
      rw [written, List.take_nil, List.drop_nil, ih]
      rfl

/-- Later bursts take the data beats that the earlier ones leave. -/
theorem written_append (w : ℕ) (bs bs' : List Burst) (ws : List (WBeat D)) :
    written w (bs ++ bs') ws = written w bs ws ++ written w bs' (ws.drop (beats bs).length) := by
  induction bs generalizing ws with
  | nil => rfl
  | cons b bs ih =>
      rw [List.cons_append, written, written, ih, List.append_assoc, beats_cons, List.length_append,
        List.length_map, List.length_range, List.drop_drop]

theorem written_mono (h : bs <+: bs') (ws : List (WBeat D)) : written w bs ws <+: written w bs' ws := by
  obtain ⟨rest, rfl⟩ := h
  rw [written_append]
  exact List.prefix_append _ _

/-- A further address changes nothing while no data goes beyond the ones before it. -/
theorem written_of_length_le (h : ws.length ≤ (beats bs).length) (bs' : List Burst) :
    written w (bs ++ bs') ws = written w bs ws := by
  rw [written_append, List.drop_eq_nil_of_le h, written_nil, List.append_nil]

/-- Bursts that have all their data take no more. -/
theorem written_of_full (h : (beats bs).length ≤ ws.length) (more : List (WBeat D)) :
    written w bs (ws ++ more) = written w bs ws := by
  induction bs generalizing ws with
  | nil => rfl
  | cons b bs ih =>
      rw [beats_cons, List.length_append, List.length_map, List.length_range] at h
      have hle : b.len + 1 ≤ ws.length := Nat.le_of_add_right_le h
      rw [written, written, List.take_append_of_le_length hle, List.drop_append_of_le_length hle, ih]
      rw [List.length_drop]
      omega

/-- **One more data beat.** -/
theorem written_snoc (h : (beats bs)[ws.length]? = some (b, i)) (x : WBeat D) :
    written w bs (ws ++ [x]) = written w bs ws ++ b.beat_written w i x := by
  induction bs generalizing ws with
  | nil => exact absurd h (by simp [beats])
  | cons b' bs ih =>
      rw [getElem?_beats_cons] at h
      rw [written, written]
      split_ifs at h with hlt
      · obtain ⟨rfl, rfl⟩ := Prod.mk.inj (Option.some.inj h)
        have hle : ws.length ≤ b'.len + 1 := hlt.le
        rw [List.take_of_length_le (by simpa using Nat.le_of_lt_succ hlt), List.take_of_length_le hle,
          List.drop_eq_nil_of_le (by simpa using Nat.le_of_lt_succ hlt), List.drop_eq_nil_of_le hle, written_nil,
          List.append_nil, List.append_nil, Burst.written_from_append, Nat.zero_add,
          Burst.written_from_singleton]
      · have hge : b'.len + 1 ≤ ws.length := not_lt.mp hlt
        rw [List.take_append_of_le_length hge, List.drop_append_of_le_length hge, ih,
          List.append_assoc]
        rwa [List.length_drop]

/-- Where a log stands that has dealt with `done` and `i` beats of `b`. -/
theorem beats_at (done later : List Burst) (hi : i ≤ b.len) :
    (beats (done ++ b :: later))[(beats done).length + i]? = some (b, i) := by
  rw [beats_append, List.getElem?_append_right (Nat.le_add_right _ _), Nat.add_sub_cancel_left,
    getElem?_beats_cons, if_pos (Nat.lt_succ_of_le hi)]

/-- The slave answers the beat that is due. -/
theorem Answers.at {mem data : ℕ → D} {last : Bool} {done : List Burst}
    (h : Answers w mem bs r data last) (hbs : bs <+: done ++ b :: later)
    (hr : r = (beats done).length + i) (hi : i ≤ b.len) :
    b.Carries w i mem data ∧ last = decide (i = b.len) := by
  obtain ⟨b', i', hbeat, hrest⟩ := h.of_prefix hbs
  rw [hr, beats_at done later hi] at hbeat
  obtain ⟨rfl, rfl⟩ := Prod.mk.inj (Option.some.inj hbeat)
  exact hrest

/-- It answers only what it was asked for. -/
theorem Answers.lt {mem data : ℕ → D} {last : Bool} (h : Answers w mem bs r data last) :
    r < (beats bs).length := by
  obtain ⟨b, i, hbeat, -⟩ := h
  exact (List.getElem?_eq_some_iff.mp hbeat).1

/-! ## An ideal slave -/

/-- The beat that a slave shows which answers as soon as it may: its data and its mark. -/
def answer (w : ℕ) (mem : ℕ → D) (bs : List Burst) (r : ℕ) : Option ((ℕ → D) × Bool) :=
  (beats bs)[r]?.map fun x => (fun k => mem (x.1.lane_addr w x.2 k), decide (x.2 = x.1.len))

theorem answer_isSome_iff {mem : ℕ → D} : (answer w mem bs r).isSome = true ↔ r < (beats bs).length := by
  simp [answer]

theorem answers_of_answer {mem : ℕ → D} {x : (ℕ → D) × Bool} (h : answer w mem bs r = some x)
    (hsize : ∀ b ∈ bs, b.size ≤ w) : Answers w mem bs r x.1 x.2 := by
  obtain ⟨⟨b, i⟩, hbeat, rfl⟩ := Option.map_eq_some_iff.mp h
  refine ⟨b, i, hbeat, fun a ha => ?_, rfl⟩
  have hmem : b ∈ bs := by
    obtain ⟨b', hb', hx⟩ := List.mem_flatMap.mp (List.mem_of_getElem? hbeat)
    obtain ⟨j, -, heq⟩ := List.mem_map.mp hx
    obtain ⟨rfl, -⟩ := Prod.mk.inj heq
    exact hb'
  exact congrArg mem (Burst.lane_addr_mod (hsize b hmem) ha)

end AxiIncr
