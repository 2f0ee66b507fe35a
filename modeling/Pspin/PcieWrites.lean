/-
The queues of `PCIeSlave` that a data beat goes through.

A beat is a request of the AXI side, then a write in flight, then a call of the host, and the
last one of a burst a response. `Inv` says that nothing is lost, repeated or reordered on the
way; `gap` and `load` measure how long it takes until nothing is left.
-/
import Pspin.PcieBursts

set_option autoImplicit false

namespace Pspin.PcieSlave

open AxiDriver (axi_w_beat_t)
open AxiMaster (has_room)
open AxiSlave

/-! ## The queues -/

section Traffic

variable {ws : List write_t} {r : ℕ}

/-- The marks of the beats are those of the writes. -/
theorem marks_of_writes (hws : ∀ w ∈ ws, w.Valid) :
    ((ws.flatMap write_t.requests).map fun req => req.w_beat.w_last)
      = BurstMarks.marks (ws.map write_t.n_beats) := by
  rw [List.map_flatMap, BurstMarks.marks, List.flatMap_map]
  apply List.flatMap_congr
  intro w hw
  rw [BurstMarks.mark_eq_map (hws w hw).n_beats_pos]
  apply List.ext_getElem
  · simp [write_t.length_requests]
  · intro q hq hq'
    have hbeat : w.beats[q]? = some _ := List.getElem?_eq_getElem (by
      simpa [write_t.length_requests, write_t.n_beats] using hq)
    simp [write_t.requests, write_t.request, (hws w hw).w_last_eq hbeat]

/-- The beat after `r`, and the request that it becomes. -/
theorem beat_at {a q : ℕ} {w : write_t}
    (hplace : Progress.place write_t.n_beats (ws.take a) r = some (w, q)) :
    (ws.flatMap write_t.beats)[r]? = w.beats[q]?
      ∧ (ws.flatMap write_t.requests)[r]? = w.requests[q]? := by
  have hall : Progress.place write_t.n_beats ws r = some (w, q) := by
    have hlt : r < Progress.total write_t.n_beats (ws.take a) :=
      Progress.place_isSome_iff.mp (by rw [hplace, Option.isSome_some])
    rw [← List.take_append_drop a ws, Progress.place_append hlt, hplace]
  have hbeats : ∀ w ∈ ws, w.beats.length = w.n_beats := fun _ _ => rfl
  have hrequests : ∀ w ∈ ws, w.requests.length = w.n_beats := fun w _ => w.length_requests
  rw [Progress.getElem?_flatMap hbeats, Progress.getElem?_flatMap hrequests, hall]
  exact ⟨rfl, rfl⟩

theorem mem_requests {req : w_beat_request_t 64} (h : req ∈ ws.flatMap write_t.requests) :
    ∃ w ∈ ws, ∃ q beat, w.beats[q]? = some beat ∧ req = w.request q beat := by
  obtain ⟨w, hw, hreq⟩ := List.mem_flatMap.mp h
  obtain ⟨q, hq, rfl⟩ := List.mem_mapIdx.mp hreq
  exact ⟨w, hw, q, _, List.getElem?_eq_getElem hq, rfl⟩

/-- No beat of a write is empty, so the assertion about its strobe holds. -/
theorem strb_ne_zero (hws : ∀ w ∈ ws, w.Valid) {req : w_beat_request_t 64}
    (h : req ∈ ws.flatMap write_t.requests) : req.w_beat.w_strb ≠ 0 := by
  obtain ⟨w, hw, q, beat, hbeat, rfl⟩ := mem_requests h
  obtain ⟨lo, m, hm, -, -, hle, hstrb⟩ := (hws w hw).lanes hbeat
  intro hzero
  have hset : beat.w_strb.getLsbD lo = true := (hstrb lo (by omega)).mpr (by omega)
  rw [show beat.w_strb = 0 from hzero] at hset
  simp at hset

end Traffic

namespace Writes

/-- The requests that were taken and not yet passed, oldest first. -/
def queued (s : Writes) : List (w_beat_request_t 64) :=
  s.in_flight_write_requests.map (·.req) ++ s.axi_driver_slv.w_beat_requests

/-- After `aw` Ax beats and `r` data beats, with the responses `b_driven` on the lines so far. -/
structure Inv (ws : List write_t) (s : Writes) (aw r : ℕ) (b_driven : List axi_b_beat_t) :
    Prop where
  r_le : r ≤ Progress.total write_t.n_beats (ws.take aw)
  aw_beats : s.axi_driver_slv.aw_beats
    = Progress.queue_at write_t.n_beats write_t.entry (ws.take aw) r
  passed_le : s.slv_writes.length ≤ r
  passed : s.slv_writes
    = ((ws.flatMap write_t.requests).take s.slv_writes.length).map call
  queued : s.queued = ((ws.flatMap write_t.requests).take r).drop s.slv_writes.length
  responses : b_driven ++ s.axi_driver_slv.b_beats
      ++ s.axi_driver_slv.aw_pending_resp.map AxiSlave.Writes.b_beat
      ++ s.axi_driver_slv.aw_beats.map AxiSlave.Writes.b_beat
    = (ws.take aw).map write_t.response
  pending : s.queued.countP (·.w_beat.w_last) = s.axi_driver_slv.aw_pending_resp.length
  answered : BurstMarks.completed (ws.map write_t.n_beats) s.slv_writes.length
    = b_driven.length + s.axi_driver_slv.b_beats.length

section Steps

variable {ws : List write_t} {s : Writes} {aw r t : ℕ} {b_driven : List axi_b_beat_t}
  {i : Inputs} (conf : Config)

/-- After construction there is no beat. -/
theorem reset_inv (aw w ar rr b : ℕ) : Inv ws (reset aw w ar rr b).writes 0 0 [] := by
  constructor <;> simp [reset, Writes.queued, Progress.queue_at, BurstMarks.completed]

/-- What the slave says on the lines, and how long it waits, is not in the invariant. -/
theorem Inv.lines (h : Inv ws s aw r b_driven) (b_wait aw_ready w_ready : Bool)
    (b_valid : Option axi_b_beat_t) (write_wait_cycles : ℕ) :
    Inv ws { s with
      axi_driver_slv := { s.axi_driver_slv with
        b_wait := b_wait
        aw_ready := aw_ready
        w_ready := w_ready
        b_valid := b_valid }
      write_wait_cycles := write_wait_cycles } aw r b_driven :=
  ⟨h.r_le, h.aw_beats, h.passed_le, h.passed, h.queued, h.responses, h.pending, h.answered⟩

/-- **An Ax beat** is put behind the others. -/
theorem Inv.aw_posedge (hws : ∀ w ∈ ws, w.Valid) (h : Inv ws s aw r b_driven)
    (hi : i.aw_valid = none ∨ i.aw_valid = (ws.map write_t.aw)[aw]?) :
    Inv ws { s with axi_driver_slv := s.axi_driver_slv.aw_posedge i.aw_valid }
      (aw + (s.axi_driver_slv.aw_posedge i.aw_valid).aw_ready.toNat) r b_driven := by
  unfold AxiSlave.Writes.aw_posedge
  cases hvalid : i.aw_valid with
  | none => exact h.lines _ _ _ _ _
  | some ax =>
      simp only
      split_ifs with hroom
      · -- the address is that of the next write, which joins behind those that wait for data
        have hget : (ws.map write_t.aw)[aw]? = some ax := by
          rcases hi with hi | hi
          · exact absurd (hvalid.symm.trans hi) (Option.some_ne_none ax)
          · exact hi.symm.trans hvalid
        rw [List.getElem?_map] at hget
        obtain ⟨w, hw, rfl⟩ := Option.map_eq_some_iff.mp hget
        have htake : ws.take (aw + 1) = ws.take aw ++ [w] := by
          rw [List.take_add_one, hw, Option.toList_some]
        have hpos := (hws w (List.mem_of_getElem? hw)).n_beats_pos
        -- one more write has its address, and no data beat has moved
        refine ⟨?_, ?_, h.passed_le, h.passed, h.queued, ?_, h.pending, h.answered⟩
        · have hle := h.r_le
          simp only [Bool.toNat_true, htake, Progress.total_append_singleton]
          omega
        · simp only [Bool.toNat_true, htake, Progress.queue_at_append hpos h.r_le, h.aw_beats]
          rfl
        · simp only [Bool.toNat_true, htake, List.map_append, ← h.responses, List.append_assoc]
          rfl
      · -- without room the port only lowers `aw_ready`
        exact h.lines _ _ _ _ _

/-- The request of a data beat joins the queue, whatever becomes of its burst: the bursts at the
port move on by one beat, and the order of the responses stays. -/
theorem Inv.request (h : Inv ws s aw r b_driven) {w : write_t} {q : ℕ} {beat : axi_w_beat_t}
    (hplace : Progress.place write_t.n_beats (ws.take aw) r = some (w, q))
    (hget : w.beats[q]? = some beat) {aw_beats aw_pending_resp : List (axi_ax_beat_t 64)}
    (haw_beats : aw_beats = Progress.queue_at write_t.n_beats write_t.entry (ws.take aw) (r + 1))
    (hresponses : aw_pending_resp.map AxiSlave.Writes.b_beat
        ++ aw_beats.map AxiSlave.Writes.b_beat
      = s.axi_driver_slv.aw_pending_resp.map AxiSlave.Writes.b_beat
        ++ s.axi_driver_slv.aw_beats.map AxiSlave.Writes.b_beat)
    (hpending : aw_pending_resp.length
      = s.axi_driver_slv.aw_pending_resp.length + beat.w_last.toNat) (w_ready : Bool) :
    Inv ws { s with
      axi_driver_slv := { s.axi_driver_slv with
        aw_beats := aw_beats
        aw_pending_resp := aw_pending_resp
        w_beat_requests := s.axi_driver_slv.w_beat_requests ++ [w.request q beat]
        w_ready := w_ready } } aw (r + 1) b_driven := by
  -- the request is beat `r` of the whole stream, since its place says which write it belongs to
  have hreq : (ws.flatMap write_t.requests)[r]? = some (w.request q beat) := by
    rw [(beat_at hplace).2, write_t.requests, List.getElem?_mapIdx, hget]
    rfl
  have hlt : r < Progress.total write_t.n_beats (ws.take aw) :=
    Progress.place_isSome_iff.mp (by rw [hplace, Option.isSome_some])
  have hqueued : s.in_flight_write_requests.map (·.req)
      ++ (s.axi_driver_slv.w_beat_requests ++ [w.request q beat])
      = s.queued ++ [w.request q beat] := by
    rw [Writes.queued, List.append_assoc]
  -- the beats between the calls of the host and the requests are contiguous
  have hnext : s.queued ++ [w.request q beat]
      = ((ws.flatMap write_t.requests).take (r + 1)).drop s.slv_writes.length := by
    rw [List.take_add_one, hreq, Option.toList_some, List.drop_append_of_le_length, h.queued]
    rw [List.length_take]
    have hlen := (List.getElem?_eq_some_iff.mp hreq).1
    have hle := h.passed_le
    omega
  refine ⟨hlt, haw_beats, Nat.le_succ_of_le h.passed_le, h.passed, hqueued.trans hnext, ?_,
    (congrArg (List.countP _) hqueued).trans ?_, h.answered⟩
  · simp only [← h.responses, List.append_assoc, hresponses]
  · rw [List.countP_append, List.countP_singleton, h.pending, hpending]
    congr 1
    show (if beat.w_last = true then 1 else 0) = beat.w_last.toNat
    cases beat.w_last <;> rfl

/-- **A data beat** becomes a request, and its burst goes on or waits for its response. -/
theorem Inv.w_posedge (hws : ∀ w ∈ ws, w.Valid) (h : Inv ws s aw r b_driven)
    (hi : i.w_valid = none ∨ i.w_valid = (ws.flatMap write_t.beats)[r]?)
    (hfollows : i.w_valid.isSome = true → has_room s.axi_driver_slv.w_beats_buffer_size
      s.axi_driver_slv.w_beat_requests.length = true →
        r < Progress.total write_t.n_beats (ws.take aw)) :
    ∃ axi, s.axi_driver_slv.w_posedge i.w_valid = some axi
      ∧ Inv ws { s with axi_driver_slv := axi } aw (r + axi.w_ready.toNat) b_driven := by
  unfold AxiSlave.Writes.w_posedge
  cases hvalid : i.w_valid with
  | none =>
      refine ⟨_, rfl, ?_⟩
      exact h.lines _ _ _ _ _
  | some beat =>
      simp only
      by_cases hroom : has_room s.axi_driver_slv.w_beats_buffer_size
          s.axi_driver_slv.w_beat_requests.length = true
      · rw [if_pos hroom]
        obtain ⟨w, q, hplace⟩ := Progress.place_of_lt (hfollows (by rw [hvalid]; rfl) hroom)
        have hget : w.beats[q]? = some beat := by
          rcases hi with hi | hi
          · exact absurd (hvalid.symm.trans hi) (Option.some_ne_none beat)
          · exact (beat_at hplace).1.symm.trans (hi.symm.trans hvalid)
        have hw : w.Valid := hws w (List.mem_of_mem_take (Progress.mem_of_place hplace))
        have hlast := hw.w_last_eq hget
        -- the burst of the beat is the oldest one at the port
        obtain ⟨rest, hnow, hnext⟩ := Progress.queue_at_succ write_t.entry
          (fun w hw => (hws w (List.mem_of_mem_take hw)).n_beats_pos) hplace
        rw [← h.aw_beats] at hnow
        rw [hnow]
        simp only
        by_cases hfinal : q + 1 = w.n_beats
        · rw [if_pos hfinal] at hnext
          rw [decide_eq_true hfinal] at hlast
          rw [if_pos hlast]
          refine ⟨_, rfl, h.request hplace hget hnext.symm ?_ ?_ true⟩
          · simp [hnow, AxiSlave.Writes.b_beat]
          · simp [hlast]
        · rw [if_neg hfinal] at hnext
          rw [decide_eq_false hfinal] at hlast
          rw [if_neg (by simp [hlast])]
          refine ⟨_, rfl, h.request hplace hget ?_ ?_ ?_ true⟩
          · rw [hnext, write_t.entry_succ hget]
          · simp [hnow, AxiSlave.Writes.b_beat]
          · simp [hlast]
      · rw [if_neg hroom]
        refine ⟨_, rfl, ?_⟩
        exact h.lines _ _ _ _ _

/-- The response that goes on the lines. -/
theorem Inv.b_posedge (h : Inv ws s aw r b_driven) :
    Inv ws { s with axi_driver_slv := s.axi_driver_slv.b_posedge } aw r
      (b_driven ++ if s.axi_driver_slv.b_wait then []
        else s.axi_driver_slv.b_posedge.b_valid.toList) := by
  unfold AxiSlave.Writes.b_posedge
  by_cases hwait : s.axi_driver_slv.b_wait = true
  · -- a response that was not taken stays on the lines, and counts already
    simpa only [if_pos hwait, List.append_nil] using h
  · simp only [if_neg hwait]
    cases hbeats : s.axi_driver_slv.b_beats with
    | nil =>
        simp only [Option.toList_none, List.append_nil]
        rw [← hbeats]
        exact h.lines _ _ _ _ _
    | cons b rest =>
        have hresponses := h.responses
        have hanswered := h.answered
        rw [hbeats] at hresponses hanswered
        -- the head of the buffer is driven, and the responses seen at the port grow by it
        refine ⟨h.r_le, h.aw_beats, h.passed_le, h.passed, h.queued, ?_, h.pending, ?_⟩
        · simpa using hresponses
        · rw [hanswered]
          simp only [Option.toList_some, List.length_append, List.length_cons, List.length_nil]
          omega

/-- A request that leaves for the host is still on its way. -/
theorem Inv.progress_new_writes (h : Inv ws s aw r b_driven) (t : ℕ) :
    Inv ws (s.progress_new_writes conf t) aw r b_driven := by
  unfold Writes.progress_new_writes AxiSlave.Writes.get_next_w_beat
  simp only
  split_ifs with hwait
  · exact h.lines _ _ _ _ _
  · cases hrequests : s.axi_driver_slv.w_beat_requests with
    | nil => exact h.lines _ _ _ _ _
    | cons req rest =>
        have hqueued : (s.in_flight_write_requests
            ++ [(⟨req, t + conf.pcie_L⟩ : pcie_write_t)]).map (·.req) ++ rest = s.queued := by
          simp [Writes.queued, hrequests]
        refine ⟨h.r_le, h.aw_beats, h.passed_le, h.passed, hqueued.trans h.queued, h.responses, ?_,
          h.answered⟩
        exact (congrArg (List.countP _) hqueued).trans h.pending

/-- What is at the head of a queue that holds the elements from some index on. -/
theorem of_drop_eq_cons {α : Type*} {l rest : List α} {n : ℕ} {x : α} (h : l.drop n = x :: rest) :
    l[n]? = some x ∧ l.drop (n + 1) = rest := by
  constructor
  · rw [← List.head?_drop, h, List.head?_cons]
  · rw [← List.drop_drop, h]
    rfl

/-- The write in flight that is passed next. -/
theorem Inv.oldest (h : Inv ws s aw r b_driven) {write : pcie_write_t} {rest : List pcie_write_t}
    (hflight : s.in_flight_write_requests = write :: rest) :
    s.queued = write.req :: (rest.map (·.req) ++ s.axi_driver_slv.w_beat_requests)
      ∧ s.slv_writes.length < r
      ∧ (ws.flatMap write_t.requests)[s.slv_writes.length]? = some write.req
      ∧ rest.map (·.req) ++ s.axi_driver_slv.w_beat_requests
        = ((ws.flatMap write_t.requests).take r).drop (s.slv_writes.length + 1) := by
  have hcons : s.queued = write.req :: (rest.map (·.req) ++ s.axi_driver_slv.w_beat_requests) := by
    simp [Writes.queued, hflight]
  obtain ⟨hget, hrest⟩ := of_drop_eq_cons (h.queued.symm.trans hcons)
  have hlt : s.slv_writes.length < r := by
    have hlen := (List.getElem?_eq_some_iff.mp hget).1
    rw [List.length_take] at hlen
    omega
  refine ⟨hcons, hlt, ?_, hrest.symm⟩
  rw [← hget, List.getElem?_take_of_lt hlt]

/-- The oldest request is passed, whatever becomes of its burst: the order of the responses
stays, and one is there to go if the request is the last of its burst. -/
theorem Inv.pass (hws : ∀ w ∈ ws, w.Valid) (h : Inv ws s aw r b_driven) {write : pcie_write_t}
    {rest : List pcie_write_t} (hflight : s.in_flight_write_requests = write :: rest)
    {b_beats : List axi_b_beat_t} {aw_pending_resp : List (axi_ax_beat_t 64)}
    (hresponses : b_beats ++ aw_pending_resp.map AxiSlave.Writes.b_beat
      = s.axi_driver_slv.b_beats
        ++ s.axi_driver_slv.aw_pending_resp.map AxiSlave.Writes.b_beat)
    (hb_beats : b_beats.length
      = s.axi_driver_slv.b_beats.length + write.req.w_beat.w_last.toNat) :
    Inv ws { s with
      slv_writes := s.slv_writes ++ [call write.req]
      in_flight_write_requests := rest
      axi_driver_slv := { s.axi_driver_slv with
        b_beats := b_beats
        aw_pending_resp := aw_pending_resp } } aw r b_driven := by
  obtain ⟨hcons, hlt, hreq, hrest⟩ := h.oldest hflight
  have hlength : (s.slv_writes ++ [call write.req]).length = s.slv_writes.length + 1 :=
    List.length_append
  have hmark : (BurstMarks.marks (ws.map write_t.n_beats))[s.slv_writes.length]?
      = some write.req.w_beat.w_last := by
    rw [← marks_of_writes hws, List.getElem?_map, hreq]
    rfl
  have hif : (if write.req.w_beat.w_last = true then 1 else 0) = write.req.w_beat.w_last.toNat := by
    cases write.req.w_beat.w_last <;> rfl
  refine ⟨h.r_le, h.aw_beats, hlength ▸ hlt, ?_, ?_, ?_, ?_, ?_⟩
  · rw [hlength, List.take_add_one, hreq, List.map_append, ← h.passed]
    rfl
  · rw [hlength]
    exact hrest
  · simp only [← h.responses, List.append_assoc]
    rw [← List.append_assoc b_beats, hresponses, List.append_assoc]
  · -- a response less waits for its burst when one is there to go
    have hpending := h.pending
    have hcount := congrArg List.length hresponses
    rw [hcons, List.countP_cons, hif] at hpending
    simp only [List.length_append, List.length_map, hb_beats] at hcount
    show (rest.map (·.req) ++ s.axi_driver_slv.w_beat_requests).countP _ = aw_pending_resp.length
    omega
  · rw [hlength, BurstMarks.completed_succ hmark, h.answered, hif, hb_beats, Nat.add_assoc]

/-- **A call of the host.** The oldest request is passed, and answered if it is the last of
its burst. No assertion fails. -/
theorem Inv.progress_in_flight_writes (hws : ∀ w ∈ ws, w.Valid) (h : Inv ws s aw r b_driven) :
    ∃ s', s.progress_in_flight_writes t = some s' ∧ Inv ws s' aw r b_driven := by
  unfold Writes.progress_in_flight_writes
  cases hflight : s.in_flight_write_requests with
  | nil => exact ⟨s, rfl, h⟩
  | cons write rest =>
      simp only
      by_cases hgo : write.time ≤ t ∧ s.axi_driver_slv.can_send_b_beat = true
      · rw [if_pos hgo]
        -- the assertion about the strobe: every beat of a legal burst has a lane
        obtain ⟨hcons, -, hreq, -⟩ := h.oldest hflight
        rw [if_neg (strb_ne_zero hws (List.mem_of_getElem? hreq))]
        by_cases hlast : write.req.w_beat.w_last = true
        · rw [if_pos hlast]
          unfold AxiSlave.Writes.send_b_beat
          cases hwait : s.axi_driver_slv.aw_pending_resp with
          | nil =>
              -- a last beat in flight is one of the bursts that wait for a response, so there is
              -- one
              have hpending := h.pending
              rw [hcons, List.countP_cons, if_pos hlast, hwait] at hpending
              exact absurd hpending (Nat.succ_ne_zero _)
          | cons ax rest' =>
              simp only
              rw [if_pos hgo.2, Option.map_some]
              refine ⟨_, rfl, h.pass hws hflight ?_ ?_⟩
              · simp [hwait]
              · simp [hlast]
        · rw [if_neg hlast]
          refine ⟨_, rfl, h.pass hws hflight rfl ?_⟩
          simp [hlast]
      · -- too early, or no room for the response
        rw [if_neg hgo]
        exact ⟨s, rfl, h⟩

/-! An edge. -/

/-- **What a call can do.** Nothing happens while no write is due or the responses are full. -/
theorem progress_in_flight_cases {s' : Writes} (h : s.progress_in_flight_writes t = some s') :
    (s' = s ∧ ∀ write ∈ s.in_flight_write_requests.head?, write.time ≤ t →
        s.axi_driver_slv.can_send_b_beat = false)
      ∨ ∃ write rest b_beats aw_pending_resp, s.in_flight_write_requests = write :: rest
        ∧ b_beats.length ≤ s.axi_driver_slv.b_beats.length + 1
        ∧ s' = { s with
          slv_writes := s.slv_writes ++ [call write.req]
          in_flight_write_requests := rest
          axi_driver_slv := { s.axi_driver_slv with
            b_beats := b_beats
            aw_pending_resp := aw_pending_resp } } := by
  unfold Writes.progress_in_flight_writes at h
  cases hflight : s.in_flight_write_requests with
  -- nothing is in flight
  | nil =>
      rw [hflight] at h
      exact Or.inl ⟨(Option.some.inj h).symm, by simp⟩
  | cons write rest =>
      rw [hflight] at h
      simp only at h
      split_ifs at h with hgo hstrb hlast
      · -- the last beat of a burst: the call and the response
        obtain ⟨axi, haxi, rfl⟩ := Option.map_eq_some_iff.mp h
        unfold AxiSlave.Writes.send_b_beat at haxi
        split at haxi
        · exact absurd haxi nofun
        · split_ifs at haxi
          obtain rfl := Option.some.inj haxi
          exact Or.inr ⟨write, rest, _, _, rfl, by simp, rfl⟩
      · -- any other beat: the call only
        obtain rfl := Option.some.inj h
        exact Or.inr ⟨write, rest, _, _, rfl, Nat.le_succ _, rfl⟩
      · -- the beat is not due, or the buffer of the responses is full
        refine Or.inl ⟨(Option.some.inj h).symm, ?_⟩
        intro write' hwrite' hdue
        obtain rfl : write = write' := by simpa using hwrite'
        simpa [hdue] using hgo

/-- What each part of an edge changes of the driver: carrying out a beat adds a response. -/
theorem progress_in_flight_axi {s' : Writes} (h : s.progress_in_flight_writes t = some s') :
    s'.axi_driver_slv = { s.axi_driver_slv with
      b_beats := s'.axi_driver_slv.b_beats
      aw_pending_resp := s'.axi_driver_slv.aw_pending_resp } := by
  obtain ⟨rfl, -⟩ | ⟨_, _, _, _, -, -, rfl⟩ := progress_in_flight_cases h
  · rfl
  · rfl

theorem w_posedge_axi {axi axi' : AxiSlave.Writes 64} {w_valid : Option axi_w_beat_t}
    (h : axi.w_posedge w_valid = some axi') :
    axi' = { axi with
      aw_beats := axi'.aw_beats
      aw_pending_resp := axi'.aw_pending_resp
      w_beat_requests := axi'.w_beat_requests
      w_ready := axi'.w_ready } := by
  unfold AxiSlave.Writes.w_posedge at h
  split at h
  · rw [← Option.some.inj h]
  · split at h
    · split at h
      · exact absurd h nofun
      · simp only at h
        split at h <;> rw [← Option.some.inj h]
    · rw [← Option.some.inj h]

theorem aw_posedge_axi (axi : AxiSlave.Writes 64) (aw_valid : Option (axi_ax_beat_t 64)) :
    axi.aw_posedge aw_valid = { axi with
      aw_beats := (axi.aw_posedge aw_valid).aw_beats
      aw_ready := (axi.aw_posedge aw_valid).aw_ready } := by
  unfold AxiSlave.Writes.aw_posedge
  split
  · rfl
  · split_ifs <;> rfl

theorem b_posedge_axi (axi : AxiSlave.Writes 64) :
    axi.b_posedge = { axi with
      b_beats := axi.b_posedge.b_beats
      b_valid := axi.b_posedge.b_valid } := by
  unfold AxiSlave.Writes.b_posedge
  split_ifs
  · rfl
  · split <;> rfl

theorem b_posedge_beats (axi : AxiSlave.Writes 64) :
    axi.b_posedge.b_beats = if axi.b_wait then axi.b_beats else axi.b_beats.tail := by
  unfold AxiSlave.Writes.b_posedge
  split_ifs
  · rfl
  · cases hbeats : axi.b_beats with
    | nil => rfl
    | cons b rest => rfl

/-- Looking at the next beat takes it from the requests. -/
theorem progress_new_axi (s : Writes) :
    (s.progress_new_writes conf t).axi_driver_slv = { s.axi_driver_slv with
      w_beat_requests := (s.progress_new_writes conf t).axi_driver_slv.w_beat_requests } := by
  unfold Writes.progress_new_writes AxiSlave.Writes.get_next_w_beat
  simp only
  split_ifs
  · rfl
  · cases s.axi_driver_slv.w_beat_requests <;> rfl

/-- The parts of a rising edge. -/
theorem posedge_eq_some {s' : Writes} : s.posedge conf i = some s' ↔ ∃ s₁ axi,
    s.progress_in_flight_writes i.sim_time = some s₁
      ∧ (s₁.axi_driver_slv.aw_posedge i.aw_valid).w_posedge i.w_valid = some axi
      ∧ ({ s₁ with axi_driver_slv := axi.b_posedge } : Writes).progress_new_writes conf i.sim_time
        = s' := by
  unfold Writes.posedge
  simp only [Option.bind_eq_some_iff, Option.map_eq_some_iff]
  constructor
  · rintro ⟨s₁, h₁, axi, h₂, h₃⟩
    exact ⟨s₁, axi, h₁, h₂, h₃⟩
  · rintro ⟨s₁, axi, h₁, h₂, h₃⟩
    exact ⟨s₁, h₁, axi, h₂, h₃⟩

/-- An Ax beat is taken when there is room for it. -/
theorem aw_posedge_ready (axi : AxiSlave.Writes 64) (aw_valid : Option (axi_ax_beat_t 64)) :
    (axi.aw_posedge aw_valid).aw_ready
      = (aw_valid.isSome && has_room axi.aw_beats_buffer_size axi.aw_beats.length) := by
  unfold AxiSlave.Writes.aw_posedge
  cases aw_valid with
  | none => rfl
  | some aw =>
      simp only
      split_ifs with hroom
      · exact hroom.symm
      · exact (Bool.eq_false_iff.mpr hroom).symm

/-- **A rising edge.** No assertion fails, and the invariant holds with what is taken. -/
theorem Inv.posedge (hws : ∀ w ∈ ws, w.Valid) (h : Inv ws s aw r b_driven)
    (haw : i.aw_valid = none ∨ i.aw_valid = (ws.map write_t.aw)[aw]?)
    (hw : i.w_valid = none ∨ i.w_valid = (ws.flatMap write_t.beats)[r]?)
    (hfollows : i.w_valid.isSome = true → has_room s.axi_driver_slv.w_beats_buffer_size
      s.axi_driver_slv.w_beat_requests.length = true →
        r < Progress.total write_t.n_beats
          (ws.take (aw + (s.axi_driver_slv.aw_posedge i.aw_valid).aw_ready.toNat))) :
    ∃ s', s.posedge conf i = some s'
      ∧ Inv ws s' (aw + s'.axi_driver_slv.aw_ready.toNat) (r + s'.axi_driver_slv.w_ready.toNat)
        (b_driven ++ if s.axi_driver_slv.b_wait then []
          else s'.axi_driver_slv.b_valid.toList) := by
  -- the four parts of the edge, in the order in which the source calls them
  obtain ⟨s₁, h₁, hinv₁⟩ := h.progress_in_flight_writes (t := i.sim_time) hws
  have haxi₁ := progress_in_flight_axi h₁
  have hready : (s₁.axi_driver_slv.aw_posedge i.aw_valid).aw_ready
      = (s.axi_driver_slv.aw_posedge i.aw_valid).aw_ready := by
    rw [aw_posedge_ready, aw_posedge_ready, haxi₁]
  have hinv₂ := hinv₁.aw_posedge hws haw
  have haxi₂ := aw_posedge_axi s₁.axi_driver_slv i.aw_valid
  obtain ⟨axi, h₃, hinv₃⟩ := hinv₂.w_posedge (i := i) hws hw (by
    rw [hready, haxi₂, haxi₁]
    exact hfollows)
  have haxi₃ := w_posedge_axi h₃
  have hinv₄ := hinv₃.b_posedge.progress_new_writes conf i.sim_time
  -- none of the parts in between looks at what the response channel waits for
  have hwait : axi.b_wait = s.axi_driver_slv.b_wait := by
    rw [haxi₃, haxi₂, haxi₁]
  have haw_ready : (s₁.axi_driver_slv.aw_posedge i.aw_valid).aw_ready = axi.b_posedge.aw_ready := by
    rw [b_posedge_axi, haxi₃]
  have hw_ready : axi.w_ready = axi.b_posedge.w_ready := by
    rw [b_posedge_axi]
  refine ⟨_, (posedge_eq_some conf).mpr ⟨_, _, h₁, h₃, rfl⟩, ?_⟩
  simp only [hwait, haw_ready, hw_ready] at hinv₄
  rw [progress_new_axi]
  simpa only [← progress_new_axi] using hinv₄

/-! ## How long it takes -/

/-- The cycles until all requests have left for the host. -/
def gap (conf : Config) (s : Writes) : ℕ :=
  s.write_wait_cycles
    + (s.axi_driver_slv.w_beat_requests.map fun req => conf.pcie_G req.data_size + 1).sum

/-- The calls and responses that are to come. -/
def load (s : Writes) : ℕ := 2 * s.queued.length + s.axi_driver_slv.b_beats.length

/-- With nothing to look at there is no request. -/
theorem requests_nil_of_gap (h : s.gap conf = 0) : s.axi_driver_slv.w_beat_requests = [] := by
  unfold gap at h
  cases hrequests : s.axi_driver_slv.w_beat_requests with
  | nil => rfl
  | cons req rest =>
      rw [hrequests] at h
      simp at h

theorem load_progress_in_flight {s' : Writes} (h : s.progress_in_flight_writes t = some s') :
    s'.load ≤ s.load := by
  obtain ⟨rfl, -⟩ | ⟨write, rest, b_beats, _, hflight, hlen, rfl⟩ := progress_in_flight_cases h
  · exact le_refl _
  · unfold load Writes.queued
    simp only [hflight, List.map_cons, List.length_append, List.length_cons]
    omega

/-- A write that is due is passed, or a response is there to go. -/
theorem load_lt_of_due {s' : Writes} (h : s.progress_in_flight_writes t = some s')
    (hdue : ∀ write ∈ s.in_flight_write_requests, write.time ≤ t)
    (hrequests : s.axi_driver_slv.w_beat_requests = []) :
    s'.load < s.load ∨ s' = s ∧ (s.axi_driver_slv.b_beats ≠ [] ∨ s.load = 0) := by
  obtain ⟨rfl, hfull⟩ | ⟨write, rest, b_beats, _, hflight, hlen, rfl⟩ := progress_in_flight_cases h
  · -- nothing was carried out: either all is done, or the responses are stuck in their buffer
    refine Or.inr ⟨rfl, ?_⟩
    cases hflight : s'.in_flight_write_requests with
    | nil =>
        rw [or_iff_not_imp_left, not_not]
        intro hbeats
        simp [load, Writes.queued, hflight, hrequests, hbeats]
    | cons write rest =>
        left
        have hroom := hfull write (by simp [hflight]) (hdue write (by simp [hflight]))
        intro hbeats
        simp only [AxiSlave.Writes.can_send_b_beat, hbeats, has_room, List.length_nil,
          Bool.or_eq_false_iff, beq_eq_false_iff_ne, decide_eq_false_iff_not] at hroom
        omega
  · -- a beat carried out takes two off the load and may add one response
    left
    unfold load Writes.queued
    simp only [hflight, List.map_cons, List.length_append, List.length_cons]
    omega

/-- Looking at the next beat brings the slave nearer to it, and what it puts in flight is due after
the latency. -/
theorem progress_new_spec (s : Writes) (t : ℕ) :
    (s.progress_new_writes conf t).gap conf ≤ s.gap conf - 1
      ∧ (s.progress_new_writes conf t).load = s.load
      ∧ ∀ write ∈ (s.progress_new_writes conf t).in_flight_write_requests,
        write ∈ s.in_flight_write_requests
          ∨ write.time = t + conf.pcie_L ∧ s.axi_driver_slv.w_beat_requests ≠ [] := by
  unfold Writes.progress_new_writes AxiSlave.Writes.get_next_w_beat
  simp only
  split_ifs with hwait
  · -- the link is still busy with the beat before
    refine ⟨?_, rfl, fun write hwrite => Or.inl hwrite⟩
    unfold gap
    simp only
    omega
  · cases hrequests : s.axi_driver_slv.w_beat_requests with
    | nil =>
        -- it is free, and there is no request
        refine ⟨?_, rfl, fun write hwrite => Or.inl hwrite⟩
        simp only [gap, hrequests, List.map_nil, List.sum_nil]
        omega
    | cons req rest =>
        -- the request goes into flight, and the link is busy for its size
        refine ⟨?_, ?_, fun write hwrite => ?_⟩
        · simp only [gap, hrequests, List.map_cons, List.sum_cons]
          omega
        · simp only [load, Writes.queued, hrequests, List.map_append, List.map_cons,
            List.map_nil, List.length_append, List.length_map, List.length_cons, List.length_nil]
          omega
        · rcases List.mem_append.mp hwrite with hold | hnew
          · exact Or.inl hold
          · rw [List.mem_singleton.mp hnew]
            exact Or.inr ⟨rfl, List.cons_ne_nil _ _⟩

/-- Carrying out a beat puts nothing in flight. -/
theorem in_flight_subset {s' : Writes} (h : s.progress_in_flight_writes t = some s') :
    ∀ write ∈ s'.in_flight_write_requests, write ∈ s.in_flight_write_requests := by
  obtain ⟨rfl, -⟩ | ⟨_, _, _, _, hflight, -, rfl⟩ := progress_in_flight_cases h
  · exact fun _ hwrite => hwrite
  · rw [hflight]
    exact fun _ hwrite => List.mem_cons_of_mem _ hwrite

/-- A write is in flight for `pcie_L` at most, before it is due. -/
theorem posedge_times {s' : Writes} (h : s.posedge conf i = some s') :
    ∀ write ∈ s'.in_flight_write_requests, write ∈ s.in_flight_write_requests
      ∨ write.time = i.sim_time + conf.pcie_L := by
  obtain ⟨s₁, axi, h₁, -, rfl⟩ := (posedge_eq_some conf).mp h
  obtain ⟨-, -, hflight⟩ :=
    progress_new_spec conf ({ s₁ with axi_driver_slv := axi.b_posedge } : Writes) i.sim_time
  intro write hwrite
  rcases hflight write hwrite with hold | ⟨htime, -⟩
  · exact Or.inl (in_flight_subset h₁ write hold)
  · exact Or.inr htime

/-- Without a data beat the port takes no request, and keeps its responses and its wait. -/
theorem port_idle {s₁ : Writes} {axi : AxiSlave.Writes 64} {aw_valid : Option (axi_ax_beat_t 64)}
    (h₁ : s.progress_in_flight_writes t = some s₁)
    (h₂ : (s₁.axi_driver_slv.aw_posedge aw_valid).w_posedge none = some axi) :
    axi.w_beat_requests = s.axi_driver_slv.w_beat_requests
      ∧ s₁.axi_driver_slv.w_beat_requests = s.axi_driver_slv.w_beat_requests
      ∧ axi.b_wait = s.axi_driver_slv.b_wait ∧ axi.b_beats = s₁.axi_driver_slv.b_beats := by
  have haxi₁ := progress_in_flight_axi h₁
  have haxi₂ := aw_posedge_axi s₁.axi_driver_slv aw_valid
  have hidle := Option.some.inj h₂
  refine ⟨?_, ?_, ?_, ?_⟩
  · rw [← hidle, haxi₂, haxi₁]
  · rw [haxi₁]
  · rw [← hidle, haxi₂, haxi₁]
  · rw [← hidle, haxi₂]

/-- **A rising edge without a data beat.** The requests leave, nothing is added to what is to
come, and what is due goes on unless the lines wait. -/
theorem posedge_drains {s' : Writes} (h : s.posedge conf i = some s') (hw : i.w_valid = none) :
    s'.gap conf ≤ s.gap conf - 1 ∧ s'.load ≤ s.load
      ∧ (∀ write ∈ s'.in_flight_write_requests, write ∈ s.in_flight_write_requests
        ∨ write.time = i.sim_time + conf.pcie_L ∧ s.axi_driver_slv.w_beat_requests ≠ [])
      ∧ (s.axi_driver_slv.b_wait = false → s.axi_driver_slv.w_beat_requests = [] →
        (∀ write ∈ s.in_flight_write_requests, write.time ≤ i.sim_time) → s'.load ≤ s.load - 1) := by
  obtain ⟨s₁, axi, h₁, h₂, rfl⟩ := (posedge_eq_some conf).mp h
  have hload₁ := load_progress_in_flight h₁
  have hwait₁ : s₁.write_wait_cycles = s.write_wait_cycles := by
    obtain ⟨rfl, -⟩ | ⟨_, _, _, _, -, -, rfl⟩ := progress_in_flight_cases h₁ <;> rfl
  rw [hw] at h₂
  obtain ⟨hrequests, hrequests₁, hb_wait, hb_beats⟩ := port_idle h₁ h₂
  obtain ⟨hgap, hload, hflight⟩ :=
    progress_new_spec conf ({ s₁ with axi_driver_slv := axi.b_posedge } : Writes) i.sim_time
  -- only the last part looks at the requests, so the gap is that of the state before
  have hgap₂ : gap conf { s₁ with axi_driver_slv := axi.b_posedge } = s.gap conf := by
    unfold gap
    rw [b_posedge_axi]
    simp only [hrequests, hwait₁]
  have hload₂ : load { s₁ with axi_driver_slv := axi.b_posedge }
      = 2 * s₁.queued.length + axi.b_posedge.b_beats.length := by
    unfold load Writes.queued
    rw [b_posedge_axi]
    simp only [hrequests, hrequests₁]
  have hload₁' : s₁.load = 2 * s₁.queued.length + axi.b_beats.length := by rw [hb_beats]; rfl
  have hbeats := b_posedge_beats axi
  have hrequests₂ : axi.b_posedge.w_beat_requests = s.axi_driver_slv.w_beat_requests := by
    rw [b_posedge_axi]
    exact hrequests
  rw [hgap₂] at hgap
  rw [hload, hload₂]
  refine ⟨hgap, ?_, ?_, ?_⟩
  · -- the response that is driven leaves its buffer
    have hle : axi.b_posedge.b_beats.length ≤ axi.b_beats.length := by
      rw [hbeats]
      split_ifs <;> simp
    omega
  · intro write hwrite
    rcases hflight write hwrite with hold | hnew
    · exact Or.inl (in_flight_subset h₁ write hold)
    · exact Or.inr (by simpa only [hrequests₂] using hnew)
  · -- with the port ready and all beats due, a response or a beat moves in every edge
    intro hwait hnone hdue
    have htail : axi.b_posedge.b_beats.length = axi.b_beats.length - 1 := by
      rw [hbeats, hb_wait, hwait]
      simp
    rcases load_lt_of_due h₁ hdue hnone with hless | ⟨rfl, hready | hzero⟩
    · omega
    · have hpos : 0 < axi.b_beats.length := by
        rw [hb_beats]
        exact List.length_pos_iff.mpr hready
      omega
    · omega

end Steps

end Writes

end Pspin.PcieSlave
