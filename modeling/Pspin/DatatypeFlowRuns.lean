/-
Messages of datatypes, in every run of their handlers.

`FlowInv` is what the segments keep from packet to packet; with it the call of the
interpreter for the next packet copies that packet's slice (`ph_spec`). `flows_unpack` then
follows from what `Inv` says of every system of handlers.
-/
import Pspin.DatatypeCalls
import Pspin.DatatypeFlows
import Pspin.HandlerProgress
import Pspin.HandlerWrites

set_option autoImplicit false

open Function (update)
open NestedLoop Fit

namespace Pspin.Datatypes

open Handlers Slmp IpChecksum

variable {w : Flows} {f i k p pc : ℕ} {a : BitVec 32} {mem : HandlerMem} {ops : List Op}
variable {s s' s₀ : Sys FlowTask HandlerMem}

/-- The flows have buffers of their own in the host's memory, and a datatype stays in its
buffer and writes no byte twice. The source leaves the check of the former open. -/
structure Flows.Fits (w : Flows) : Prop where
  flows : w.flows ≤ CORE_COUNT
  hpu_gid : ∀ t, (w.hpu_gid t).toNat < CORE_COUNT
  aligned : w.host_addr.toNat % PAGE_SIZE = 0
  window : ∀ f < w.flows, ∀ x ∈ (w.flow f).places, x.toNat < SIZE_MSG
  nodup : ∀ f < w.flows, (w.flow f).places.Nodup

/-! ## One packet -/

namespace Flow

variable {v : Flow}

/-- The places are the addresses of the datatype, from the start of its window. -/
theorem places_eq (v : Flow) : v.places = addresses (v.dlp.typemap 0) := by
  rw [dlp, dlp_typemap v.committed, places]
  simp only [zero_add]

/-- There is a byte of the message for each of them. -/
theorem places_length (v : Flow) : v.places.length = v.data.length := by
  rw [places_eq, addresses_length]
  exact v.size

/-- The payload of a packet lies in the message. -/
theorem end_le (v : Flow) (hi : i < v.count) :
    (v.packet i).off + (v.packet i).payload.length ≤ v.data.length := by
  have hpos := v.nonempty i hi
  have := (v.slice i hi ((v.packet i).payload.length - 1) (by omega)).1
  omega

end Flow

theorem flow_id_toNat (hw : w.Fits) (hf : f < w.flows) : (BitVec.ofNat 32 f).toNat = f := by
  have h16 : CORE_COUNT = 16 := rfl
  have := hw.flows
  rw [BitVec.toNat_ofNat, Nat.mod_eq_of_lt (by omega)]

/-- The end of a packet's slice, as the handler computes it. -/
theorem stream_end (v : Flow) (hi : i < v.count) :
    (ntohl (v.packet i).hdrs.slmp_hdr.pkt_off
      + ((SLMP_PAYLOAD_LEN (v.packet i).hdrs).setWidth 16).setWidth 32).toNat =
      (v.packet i).off + (v.packet i).payload.length := by
  have hlt := (v.packet i).payload_lt
  have hend := v.end_le hi
  have hbound := v.bound
  rw [BitVec.toNat_add, BitVec.toNat_setWidth, BitVec.toNat_setWidth, Packet.payload_len]
  change ((v.packet i).off + _) % _ = _
  rw [Nat.mod_eq_of_lt hlt, Nat.mod_eq_of_lt (hlt.trans (by decide)), Nat.mod_eq_of_lt (by omega)]

/-- The buffer of a flow. -/
def Flows.buffer (w : Flows) (f : ℕ) : Offset :=
  w.host_addr + BitVec.ofNat 64 (CORE_COUNT * PAGE_SIZE) + BitVec.ofNat 64 (f * SIZE_MSG)

/-- Where the payload of a packet at `a` begins. -/
def streambuf (a : BitVec 32) : ℕ := (a + BitVec.ofNat 32 sizeof_slmp_pkt_hdr_t).toNat

/-- What a payload handler issues: commands that copy the slice, then the acknowledgement. -/
structure Copies (w : Flows) (f i : ℕ) (a : BitVec 32) (ops : List Op) (issued : List Dma) : Prop where
  ops : ops = acked (issued.map Dma.command) (SYN ((w.flow f).packet i).flags)
    ((w.flow f).packet i).hdrs (w.args (.ph f i) a).task
  nonempty : ∀ m ∈ issued, 0 < m.size
  copies : bytes issued =
    (slice (w.flow f).dlp (w.buffer f) ((w.flow f).packet i).off
      (((w.flow f).packet i).off + ((w.flow f).packet i).payload.length)).zip
        (List.range' (streambuf a) ((w.flow f).packet i).payload.length)

/-- What the handler of a packet does: it finds the segment of its flow between two packets, walks
it over the payload and leaves it between two packets again, and its commands copy the payload to
the places of the datatype. -/
theorem ph_spec (hw : w.Fits) (hf : f < w.flows) (hi : i < (w.flow f).count)
    (hs : Standing (w.flow f).dlp (mem.state f))
    (hback : (mem.state f).stream_off ≤ ((w.flow f).packet i).off ∨ (w.flow f).reorder = true)
    (a : BitVec 32) :
    ∃ issued segment, Copies w f i a (w.handler (.ph f i) mem a).1 issued ∧
      (w.handler (.ph f i) mem a).2 = { mem with state := update mem.state f segment } ∧
      Standing (w.flow f).dlp segment ∧ segment.stream_off =
        ((w.flow f).packet i).off + ((w.flow f).packet i).payload.length := by
  have hpos := (w.flow f).nonempty i hi
  have hend := (w.flow f).end_le hi
  have hbound := (w.flow f).bound
  have hsize : (w.flow f).dlp.size = (w.flow f).data.length := (w.flow f).size
  have hignore : SEGMENT_IGNORE_LAST = 2 ^ 64 - 1 := rfl
  -- payloads begin and end between two elements, so the call neither splits one nor stops short
  obtain ⟨hb, hb'⟩ := (w.flow f).boundary i hi
  have hfl : ((w.flow f).packet i).off <
      ((w.flow f).packet i).off + ((w.flow f).packet i).payload.length := by omega
  obtain ⟨r, hrun, hstand, hoff, -, hle, hlast, hbytes, hnonempty⟩ :=
    manipulate_copies (p := ⟨streambuf a, w.buffer f⟩) hs (dlp_wellFormed (w.flow f).committed)
      (by omega) hb (by omega) hfl (by omega)
      (hback.imp id fun h => .inr ((w.flow f).resettable h)) (w.enough f)
  -- the walk stops at the last boundary, which is the end of the payload
  have hlastp : r.lastp = ((w.flow f).packet i).off + ((w.flow f).packet i).payload.length :=
    le_antisymm hle (hlast _ hb' le_rfl)
  rw [hlastp, Nat.add_sub_cancel_left] at hbytes
  have hrun' : datatypes_ph (w.fuel f) (w.args (.ph f i) a) ((w.flow f).packet i).hdrs mem =
      some (acked (r.issued.map Dma.command) (SYN ((w.flow f).packet i).flags)
        ((w.flow f).packet i).hdrs (w.args (.ph f i) a).task,
        { mem with state := update mem.state f r.segment }) := by
    -- the handler looks the segment up by its flow id
    have hid : (w.args (.ph f i) a).task.flow_id.toNat = f := flow_id_toNat hw hf
    rw [datatypes_ph, hid, stream_end (w.flow f) hi]
    exact congrArg (Option.map _) hrun
  have hhandler : w.handler (.ph f i) mem a = _ := congrArg (fun r => r.getD ([], mem)) hrun'
  refine ⟨r.issued, r.segment, ⟨?_, hnonempty, hbytes⟩, ?_, hstand, hoff.trans hlastp⟩
  · rw [hhandler]
    rfl
  · rw [hhandler]
    rfl

/-! ## The segments -/

/-- The segments between two packets. -/
structure FlowInv (w : Flows) (s : Sys FlowTask HandlerMem) : Prop where
  standing : ∀ f < w.flows, Standing (w.flow f).dlp (s.mem.state f)
  behind : ∀ f < w.flows, (w.flow f).reorder = false → ∀ i < (w.flow f).count,
    s.status (.ph f i) = .waiting → (s.mem.state f).stream_off ≤ ((w.flow f).packet i).off

/-- The first packet of a flow passes the check of the header handler. -/
theorem hh_program (w : Flows) (f : ℕ) (mem : HandlerMem) (a : BitVec 32) :
    w.handler (.hh f) mem a = ([], mem) := by
  have hsyn : SYN (ntohs (w.packet (.hh f)).hdrs.slmp_hdr.flags) = true := (w.flow f).syn
  have hok : datatypes_hh (w.packet (.hh f)).hdrs mem = some ([], mem) := by
    simp only [datatypes_hh, hsyn, Bool.not_true, Bool.false_eq_true, if_false]
  exact congrArg (fun r => r.getD ([], mem)) hok

/-- The flag that the completion handler of flow `f` writes. -/
def Flows.flag (w : Flows) (f : ℕ) (mem : HandlerMem) : fpspin_flag_t where
  dma_id := mem.dma_idx (w.hpu_id (.th f)) + 1
  len := BitVec.ofNat 32 f
  hpu_id := (w.hpu_gid (.th f)).setWidth 16
  padding := w.padding

/-- The last packet passes the check of the completion handler, which makes its request. -/
theorem th_program (w : Flows) (f : ℕ) (mem : HandlerMem) (a : BitVec 32) :
    (w.handler (.th f) mem a).1 = host_req (w.args (.th f) a) (w.flag f mem) ∧
      (w.handler (.th f) mem a).2.state = mem.state := by
  have heom : EOM (ntohs (w.packet (.th f)).hdrs.slmp_hdr.flags) = true := (w.flow f).eom
  have hok : datatypes_th (w.args (.th f) a) (w.packet (.th f)).hdrs w.padding mem =
      some (host_req (w.args (.th f) a) (w.flag f mem), { mem with
        dma_idx := update mem.dma_idx (w.hpu_id (.th f)) (mem.dma_idx (w.hpu_id (.th f)) + 1) }) := by
    simp only [datatypes_th, heom, fpspin_host_req, Flows.flag, Flows.args, Flows.flow_id,
      Bool.not_true, Bool.false_eq_true, if_false, Function.update_self]
  have hhandler : w.handler (.th f) mem a = _ := congrArg (fun r => r.getD ([], mem)) hok
  rw [hhandler]
  exact ⟨rfl, rfl⟩

/-- When the scheduler starts a packet handler, the segment has not passed its payload, or can be
set back. -/
theorem FlowInv.ready (h : FlowInv w s) (hw : s.status (.ph f i) = .waiting)
    (hr : w.turn s.status (.ph f i)) :
    (s.mem.state f).stream_off ≤ ((w.flow f).packet i).off ∨ (w.flow f).reorder = true := by
  obtain ⟨hf, hi, -⟩ := hr
  cases ho : (w.flow f).reorder with
  | true => exact .inr rfl
  | false => exact .inl (h.behind f hf ho i hi hw)

/-- Every step keeps it: a packet handler moves the segment of its own flow, and nothing else moves
one. -/
theorem flowInv_step (hw : w.Fits) (h : FlowInv w s) (hstep : Step w.config s s') : FlowInv w s' := by
  rcases hstep.mem with ⟨hmem, hwait⟩ | ⟨t, a, hwt, hready, hmem, hstatus⟩
  · refine ⟨fun f hf => ?_, fun f hf ho i hi hwi => ?_⟩
    · rw [hmem]
      exact h.standing f hf
    · rw [hmem]
      exact h.behind f hf ho i hi ((hwait _).mp hwi)
  · -- a waiting packet was waiting before
    have hbefore : ∀ u, s'.status u = .waiting → s.status u = .waiting ∧ u ≠ t := by
      intro u hu
      rw [hstatus] at hu
      by_cases hut : u = t
      · rw [hut, Function.update_self] at hu
        exact absurd hu nofun
      · rw [Function.update_of_ne hut] at hu
        exact ⟨hu, hut⟩
    have hsame : s'.mem.state = s.mem.state → FlowInv w s' := fun heq =>
      ⟨fun f hf => heq ▸ h.standing f hf,
        fun f hf ho i hi hwi => heq ▸ h.behind f hf ho i hi (hbefore _ hwi).1⟩
    cases t with
    | hh f =>
        refine hsame (hmem ▸ ?_)
        exact congrArg (fun r => r.2.state) (hh_program w f s.mem a)
    | th f => exact hsame (hmem ▸ (th_program w f s.mem a).2)
    | ph f i =>
        obtain ⟨⟨hf, hi, hhh, hothers⟩, -⟩ := hready
        obtain ⟨issued, segment, -, hmem', hstand, hoff⟩ :=
          ph_spec hw hf hi (h.standing f hf) (h.ready hwt ⟨hf, hi, hhh, hothers⟩) a
        have hstate : s'.mem.state = update s.mem.state f segment := by
          rw [hmem]
          exact congrArg HandlerMem.state hmem'
        refine ⟨fun g hg => ?_, fun g hg ho j hj hwj => ?_⟩
        · rw [hstate]
          by_cases hgf : g = f
          · rw [hgf, Function.update_self]
            exact hstand
          · rw [Function.update_of_ne hgf]
            exact h.standing g hg
        · obtain ⟨hwj', hji⟩ := hbefore _ hwj
          rw [hstate]
          by_cases hgf : g = f
          · subst hgf
            rw [Function.update_self, hoff]
            -- the packets that are still to come are behind this one
            have hne : j ≠ i := fun h => hji (by rw [h])
            rcases hothers j hj hne with hret | ⟨-, hlt | ho'⟩
            · rw [hwj'] at hret
              exact hret.elim
            · exact (w.flow g).sorted i j hlt hj
            · rw [ho] at ho'
              exact absurd ho' nofun
          · rw [Function.update_of_ne hgf]
            exact h.behind g hg ho j hj hwj'

/-- The host has prepared a segment for each flow. -/
structure Flows.Prepared (w : Flows) (s₀ : Sys FlowTask HandlerMem) : Prop where
  initial : s₀.Initial
  state : ∀ f < w.flows, ∃ segp,
    s₀.mem.state f = Segment_init (w.flow f).instances (w.flow f).handle segp

theorem flowInv_of_reach (hw : w.Fits) (h₀ : w.Prepared s₀) (h : Reach w.config s₀ s) : FlowInv w s := by
  induction h with
  | refl =>
      refine ⟨fun f hf => ?_, fun f hf _ i _ _ => ?_⟩
      · obtain ⟨segp, hstate⟩ := h₀.state f hf
        rw [hstate]
        exact init_standing (dlp_wellFormed (w.flow f).committed) segp
      · obtain ⟨segp, hstate⟩ := h₀.state f hf
        rw [hstate]
        exact Nat.zero_le _
  | tail hr hstep ih => exact flowInv_step hw ih hstep

/-! ## The programs -/

/-- What the handlers issue. -/
def Flows.Issues (w : Flows) : FlowTask → BitVec 32 → List Op → Prop
  | .hh _, _, ops => ops = []
  | .ph f i, a, ops => f < w.flows ∧ i < (w.flow f).count ∧ ∃ issued, Copies w f i a ops issued
  | .th f, a, ops => ∃ flag, ops = host_req (w.args (.th f) a) flag

/-- The program of a task is what its handler issues, whenever it runs. -/
theorem issues_of_reach (hw : w.Fits) (h₀ : w.Prepared s₀) (h : Reach w.config s₀ s) {t : FlowTask}
    (hp : (s.status t).program = some (a, ops, pc)) : w.Issues t a ops := by
  induction h generalizing pc with
  | refl =>
      rw [h₀.initial.waiting] at hp
      exact absurd hp nofun
  | tail hr hstep ih =>
      rcases hstep.program hp with ⟨pc', hp'⟩ | ⟨hwt, hready, hops⟩
      · exact ih hp'
      · cases t with
        | hh f =>
            rw [hops]
            exact congrArg Prod.fst (hh_program w f _ a)
        | ph f i =>
            have hinv := flowInv_of_reach hw h₀ hr
            obtain ⟨hf, hi, -⟩ := hready.1
            obtain ⟨issued, segment, hcopies, -⟩ :=
              ph_spec hw hf hi (hinv.standing f hf) (hinv.ready hwt hready.1) a
            exact ⟨hf, hi, issued, hops ▸ hcopies⟩
        | th f => exact ⟨_, hops.trans (th_program w f _ a).1⟩

/-! ## What the commands copy -/

theorem Dma.bytes_eq (m : Dma) :
    m.bytes = (List.range m.size).map fun k => (m.dest + BitVec.ofNat 64 k, m.source + k) := by
  refine List.ext_getElem (by simp [Dma.bytes]) fun k _ _ => ?_
  simp [Dma.bytes]

/-- Which bytes a list of transfers copies. -/
theorem mem_bytes {issued : List Dma} {e : Offset × ℕ} :
    e ∈ bytes issued ↔
      ∃ m ∈ issued, ∃ k, k < m.size ∧ e = (m.dest + BitVec.ofNat 64 k, m.source + k) := by
  simp only [bytes, List.mem_flatMap, Dma.bytes_eq, List.mem_map, List.mem_range, eq_comm]

/-- The host address of a byte of the message. -/
theorem place_eq (w : Flows) (f k : ℕ) :
    w.place f k = w.buffer f + (w.flow f).places.getD k 0 := rfl

/-- The bytes of a packet, one by one. -/
theorem Copies.copied {issued : List Dma} (h : Copies w f i a ops issued) (hi : i < (w.flow f).count)
    {e : Offset × ℕ} :
    e ∈ bytes issued ↔ ∃ k, k < ((w.flow f).packet i).payload.length ∧
      e = (w.place f (((w.flow f).packet i).off + k), streambuf a + k) := by
  have hend := (w.flow f).end_le hi
  have hlen := (w.flow f).places_length
  rw [h.copies, slice, ← Flow.places_eq, Nat.add_sub_cancel_left, List.mem_iff_getElem]
  simp only [List.length_zip, List.length_map, List.length_take, List.length_drop, List.length_range',
    List.getElem_zip, List.getElem_map, List.getElem_take, List.getElem_drop, List.getElem_range',
    Nat.one_mul]
  constructor
  · rintro ⟨k, hk, rfl⟩
    refine ⟨k, by omega, ?_⟩
    rw [place_eq, List.getD_eq_getElem _ _ (by omega)]
  · rintro ⟨k, hk, rfl⟩
    refine ⟨k, by omega, ?_⟩
    rw [place_eq, List.getD_eq_getElem _ _ (by omega)]

/-- Each command reads in the payload. -/
theorem Copies.source {issued : List Dma} (h : Copies w f i a ops issued) (hi : i < (w.flow f).count)
    {m : Dma} (hm : m ∈ issued) (hpos : 0 < m.size) :
    streambuf a ≤ m.source ∧
      m.source + m.size ≤ streambuf a + ((w.flow f).packet i).payload.length := by
  obtain ⟨j, hj, hfirst⟩ := (h.copied hi).mp (mem_bytes.mpr ⟨m, hm, 0, hpos, rfl⟩)
  obtain ⟨j', hj', hlast⟩ := (h.copied hi).mp (mem_bytes.mpr ⟨m, hm, m.size - 1, by omega, rfl⟩)
  rw [Prod.mk.injEq] at hfirst hlast
  omega

/-- No transfer is longer than a packet, so its size fits its word. -/
theorem Copies.size_lt {issued : List Dma} (h : Copies w f i a ops issued) (hi : i < (w.flow f).count)
    {m : Dma} (hm : m ∈ issued) : m.size < 2 ^ 32 := by
  have hlt := ((w.flow f).packet i).payload_lt
  rcases Nat.eq_zero_or_pos m.size with hz | hpos
  · omega
  · have := h.source hi hm hpos
    omega

/-- The command asks for as many bytes as the transfer has. -/
theorem command_size {m : Dma} (hm : m.size < 2 ^ 32) : m.command.size = m.size := by
  change (BitVec.ofNat 32 m.size).toNat = m.size
  rw [BitVec.toNat_ofNat, Nat.mod_eq_of_lt hm]

/-- The payload, as the commands see it. -/
theorem view_stream (w : Flows) (f i : ℕ) (a : BitVec 32) (hk : k < ((w.flow f).packet i).payload.length) :
    view a ((w.flow f).packet i).bytes (BitVec.ofNat 32 (streambuf a + k)) =
      ((w.flow f).packet i).payload.getD k 0 := by
  rw [← ((w.flow f).packet i).view_payload a hk, BitVec.ofNat_add, BitVec.ofNat_add, ← BitVec.add_assoc,
    streambuf, BitVec.ofNat_toNat, BitVec.setWidth_eq]

/-- The commands of a packet write the packet's bytes of the message, each to its place. -/
theorem Copies.writes {issued : List Dma} (h : Copies w f i a ops issued) (hi : i < (w.flow f).count)
    {y : BitVec 64} {v : Byte} :
    (∃ m ∈ issued, (y, v) ∈ m.command.writes (view a ((w.flow f).packet i).bytes)) ↔
      ∃ k, k < ((w.flow f).packet i).payload.length ∧
        y = w.place f (((w.flow f).packet i).off + k) ∧
        v = (w.flow f).data.getD (((w.flow f).packet i).off + k) 0 := by
  -- one command writes its own bytes, from the packet as it was placed
  have hbyte : ∀ m ∈ issued, ((y, v) ∈ m.command.writes (view a ((w.flow f).packet i).bytes) ↔
      ∃ k, k < m.size ∧ y = m.dest + BitVec.ofNat 64 k ∧
        v = view a ((w.flow f).packet i).bytes (BitVec.ofNat 32 (m.source + k))) := by
    intro m hm
    rw [mem_writes_iff rfl, command_size (h.size_lt hi hm)]
    simp only [BitVec.ofNat_add]
    exact Iff.rfl
  constructor
  · -- a byte that is written is a byte of the payload, at its place
    rintro ⟨m, hm, hw⟩
    obtain ⟨k, hk, rfl, rfl⟩ := (hbyte m hm).mp hw
    obtain ⟨j, hj, heq⟩ := (h.copied hi).mp (mem_bytes.mpr ⟨m, hm, k, hk, rfl⟩)
    rw [Prod.mk.injEq] at heq
    refine ⟨j, hj, heq.1, ?_⟩
    rw [heq.2, view_stream w f i a hj, ((w.flow f).slice i hi j hj).2]
  · -- and every byte of the payload is written by some command
    rintro ⟨j, hj, rfl, rfl⟩
    obtain ⟨m, hm, k, hk, heq⟩ := mem_bytes.mp ((h.copied hi).mpr ⟨j, hj, rfl⟩)
    rw [Prod.mk.injEq] at heq
    refine ⟨m, hm, (hbyte m hm).mpr ⟨k, hk, heq.1, ?_⟩⟩
    rw [← heq.2, view_stream w f i a hj, ((w.flow f).slice i hi j hj).2]

/-! ## Soundness -/

theorem length_bytes_lt (w : Flows) (t : FlowTask) : (w.config.packet t).length < 2 ^ 32 :=
  (w.packet t).length_bytes_lt

/-- Handlers read their own packets only. -/
theorem issues_sound {t : FlowTask} (h : w.Issues t a ops) :
    Sound a (w.config.packet t).length ops := by
  have hn : sizeof_slmp_pkt_hdr_t ≤ (w.packet t).bytes.length := by
    rw [Packet.length_bytes, sizeof_eq]
    exact Nat.le_add_right _ _
  cases t with
  | hh f =>
      rw [show ops = [] from h]
      exact nil_sound a _
  | ph f i =>
      obtain ⟨hf, hi, issued, hcopies⟩ := h
      rw [hcopies.ops]
      change Sound (w.args (.ph f i) a).task.pkt_mem _ _
      -- the acknowledgement is made in the headers, and the commands read behind them
      refine acked_sound hn fun c hc x hx hpos => ?_
      obtain ⟨m, hm, rfl⟩ := List.mem_map.mp hc
      have hsize := hcopies.size_lt hi hm
      rw [command_size hsize] at hpos ⊢
      -- the source of a command is an offset into the stream buffer, which follows the headers
      obtain ⟨hle, hend⟩ := hcopies.source hi hm hpos
      have hx' : BitVec.ofNat 32 m.source = x := Option.some.inj hx
      obtain ⟨j, hj⟩ := Nat.exists_eq_add_of_le hle
      refine ⟨sizeof_slmp_pkt_hdr_t + j, ?_, Nat.le_add_right _ _, ?_⟩
      · rw [← hx', hj, streambuf, BitVec.ofNat_add, BitVec.ofNat_add, BitVec.ofNat_toNat,
          BitVec.setWidth_eq, ← BitVec.add_assoc]
        rfl
      · change _ ≤ ((w.flow f).packet i).bytes.length
        rw [Packet.length_bytes, sizeof_eq]
        omega
  | th f =>
      obtain ⟨flag, rfl⟩ := h
      exact host_req_sound a _

/-- So all transfers that are ever issued do. -/
theorem sys_sound (hw : w.Fits) (h₀ : w.Prepared s₀) (h : Reach w.config s₀ s) : s.Sound w.config :=
  fun _ _ _ _ hp => issues_sound (issues_of_reach hw h₀ h hp)

/-! ## No dead ends -/

/-- The tasks of all flows: a header handler, the packets, a completion handler. -/
def Flows.tasks (w : Flows) : List FlowTask :=
  (List.range w.flows).flatMap fun f =>
    .hh f :: .th f :: (List.range (w.flow f).count).map (FlowTask.ph f)

/-- The order in which a flow's tasks can run at the latest. -/
def Flows.rank (w : Flows) : FlowTask → ℕ
  | .hh _ => 0
  | .ph _ i => i + 1
  | .th f => (w.flow f).count + 1

theorem mem_tasks (w : Flows) (t : FlowTask) : t ∈ w.tasks ↔ match t with
    | .hh f => f < w.flows
    | .ph f i => f < w.flows ∧ i < (w.flow f).count
    | .th f => f < w.flows := by
  cases t <;> simp [Flows.tasks]

/-- A task waits only for tasks of a smaller rank, so the tasks can run in this order. -/
theorem ranked (w : Flows) : w.config.Ranked w.tasks w.rank where
  mem status t hr := by
    -- only tasks of a flow that is there are ever ready
    rw [mem_tasks]
    cases t with
    | hh f => exact hr.1
    | ph f i => exact ⟨hr.1.1, hr.1.2.1⟩
    | th f => exact hr.1.1
  -- with all tasks of lower rank over, and no HPU in use, the task may start
  ready t ht status hno hover := by
    rw [mem_tasks] at ht
    refine ⟨?_, fun u a ops pc hu => absurd hu (hno u a ops pc)⟩
    cases t with
    | hh f => exact ht
    | ph f i =>
        obtain ⟨hf, hi⟩ := ht
        refine ⟨hf, hi, hover (.hh f) ⟨(mem_tasks w _).mpr hf, Nat.succ_pos i⟩, fun j hj hji => ?_⟩
        -- the packets before have been acknowledged, those after have not been sent
        rcases Nat.lt_or_gt_of_ne hji with hlt | hgt
        · obtain ⟨a, ops, hd⟩ := hover (.ph f j)
            ⟨(mem_tasks w _).mpr ⟨hf, hj⟩, Nat.succ_lt_succ hlt⟩
          rw [hd]
          exact .inl trivial
        · cases hs : status (.ph f j) with
          | waiting => exact .inr ⟨rfl, .inl hgt⟩
          | running a ops pc => exact absurd hs (hno _ a ops pc)
          | done a ops => exact .inl trivial
    | th f =>
        exact ⟨ht, fun i hi => hover (.ph f i) ⟨(mem_tasks w _).mpr ⟨ht, hi⟩, Nat.succ_lt_succ hi⟩⟩

/-! ### Two flows of two instances of a vector -/

/-- The headers of a packet of the flow. -/
def demo_hdrs (flags len : BitVec 16) (pkt_off : BitVec 32) : slmp_pkt_hdr_t where
  eth_hdr := ⟨⟨fun _ => 0xaa⟩, ⟨fun _ => 0xbb⟩, 0x0008⟩
  ip_hdr := ⟨5, 4, 0, htons (28 + 10 + len), 0, 0, 64, 17, 0, 0x0a000001, 0x0a000002⟩
  udp_hdr := ⟨htons 9331, htons 9332, htons (18 + len), 0⟩
  slmp_hdr := ⟨htons flags, 7, htonl pkt_off⟩

/-- Sixteen different bytes. -/
def demo_data : List Byte := (List.range 16).map fun k => BitVec.ofNat 8 (k + 1)

/-- The first packet ends in the middle of the second instance. -/
def demo_packet (i : ℕ) : Packet :=
  if i = 0 then ⟨demo_hdrs MKSYN 12 0, demo_data.take 12, by decide⟩
  else ⟨demo_hdrs (MKSYN ||| MKEOM) 4 12, demo_data.drop 12, by decide⟩

/-- Two packets of eight bytes, unpacked into two instances of a vector. -/
def demo_flow : Flow where
  handle := demo_handle
  instances := 2
  data := demo_data
  count := 2
  packet := demo_packet
  reorder := false
  committed := demo_committed
  size := by decide
  bound := by decide
  nonempty := by decide
  slice := by decide
  boundary i hi := by
    rcases Nat.lt_succ_iff_lt_or_eq.mp hi with h | rfl
    · rw [Nat.lt_one_iff.mp h]
      exact ⟨demo_boundary 0 _ (by decide), demo_boundary 3 _ (by decide)⟩
    · exact ⟨demo_boundary 3 _ (by decide), demo_boundary 4 _ (by decide)⟩
  sorted i j hij hj := by
    have hi0 : i = 0 := by omega
    have hj1 : j = 1 := by omega
    rw [hi0, hj1]
    decide
  cover := by decide
  syn := by decide
  eom := by decide
  resettable h := absurd h nofun

def demo : Flows where
  flows := 2
  flow := fun _ => demo_flow
  host_mem_high := 1
  host_mem_low := 0x20000000
  hpu_gid := fun _ => 3
  hpu_id := fun _ => 3
  padding := 0
  fuel := fun _ => 10
  enough := fun _ => (by decide : (demo_handle.dlp 2).turns < 10)

/-- The prepared segments, and memories full of zeros. -/
def demo_start : Sys FlowTask HandlerMem where
  l1 := fun _ => 0
  host := fun _ => 0
  wire := []
  mem := ⟨fun _ => Segment_init 2 demo_handle ⟨0, fun _ => ⟨false, 0, 0, 0, 0, 0, 0, .final (.c_t 0) 0 0⟩, none⟩,
    fun _ => 0⟩
  flag := fun _ => 0
  status := fun _ => .waiting
  flight := []

theorem demo_prepared : demo.Prepared demo_start := ⟨⟨fun _ => rfl, rfl, rfl⟩, fun _ _ => ⟨_, rfl⟩⟩

/-- Four bytes from every multiple of eight. -/
theorem demo_places : demo_flow.places =
    ((List.range 32).filter fun n => n % 8 < 4).map (BitVec.ofNat 64) := by decide

theorem demo_window : ∀ x ∈ demo_flow.places, x.toNat < SIZE_MSG := by
  intro x hx
  have hmsg : SIZE_MSG = 8388608 := rfl
  rw [demo_places] at hx
  obtain ⟨n, hn, rfl⟩ := List.mem_map.mp hx
  have hlt := List.mem_range.mp (List.mem_filter.mp hn).1
  rw [BitVec.toNat_ofNat, hmsg]
  omega

theorem demo_fits : demo.Fits where
  flows := by decide
  hpu_gid _ := (by decide : (3 : BitVec 32).toNat < CORE_COUNT)
  aligned := by decide
  window _ _ := demo_window
  nodup _ _ := (by decide : demo_flow.places.Nodup)

/-! ## Whole messages -/

/-- A flag of the host, below all buffers. -/
def Flows.flag_addr (w : Flows) (gid k : ℕ) : BitVec 64 :=
  w.host_addr + BitVec.ofNat 64 (gid * PAGE_SIZE + k)

/-- What the commands of a run write: bytes of the messages in their places, and the flags of
the completion handlers. -/
theorem issued_writes (hw : w.Fits) (h₀ : w.Prepared s₀) (h : Reach w.config s₀ s) {t : FlowTask}
    {c : Command} (hi : Issued s.status t a ops p c) {y : BitVec 64} {v : Byte}
    (hwr : (y, v) ∈ c.writes (seen a (w.config.packet t) ops p)) :
    (∃ f k, f < w.flows ∧ k < (w.flow f).data.length ∧ y = w.place f k ∧
      v = (w.flow f).data.getD k 0) ∨
    ∃ f k, t = .th f ∧ p = 0 ∧ k < 8 ∧ y = w.flag_addr (w.hpu_gid (.th f)).toNat k := by
  obtain ⟨pc, hp, -, hop⟩ := hi
  have hissues := issues_of_reach hw h₀ h hp
  -- a header handler issues nothing
  cases t with
  | hh f =>
      rw [show ops = [] from hissues] at hop
      exact absurd hop (by simp)
  -- a transfer of the payload, or the acknowledgement, which writes nothing to the host
  | ph f i =>
      left
      obtain ⟨hf, hi, issued, hcopies⟩ := hissues
      rw [hcopies.ops] at hop
      rcases acked_cases hop with ⟨c', hc', hop', hp'⟩ | ⟨-, ⟨-, hop'⟩ | ⟨-, hop'⟩⟩
      · rw [Op.issue.injEq] at hop'
        obtain ⟨m, hm, rfl⟩ := List.mem_map.mp hc'
        rw [seen, hcopies.ops, acked_content _ hp'.le, hop'] at hwr
        obtain ⟨k, hk, hy, hv⟩ := (hcopies.writes hi).mp ⟨m, hm, hwr⟩
        exact ⟨f, _, hf, ((w.flow f).slice i hi k hk).1, hy, hv⟩
      · exact absurd hop' (by simp)
      · rw [Op.issue.injEq] at hop'
        rw [hop'] at hwr
        exact absurd hwr List.not_mem_nil
  -- the flag: the one word that a completion handler writes
  | th f =>
      right
      obtain ⟨flag, rfl⟩ := hissues
      obtain ⟨hp0, hc⟩ := host_req_issue hop
      rw [hc, mem_writes_iff rfl,
        hpu_line (w.args (.th f) a) hw.aligned (hw.hpu_gid (.th f))] at hwr
      obtain ⟨k, hk, hy, -⟩ := hwr
      refine ⟨f, k, rfl, hp0, hk, ?_⟩
      rw [hy, Flows.flag_addr, BitVec.ofNat_add, ← BitVec.add_assoc]
      rfl

/-- A place as an offset from the start of the host's memory. -/
theorem place_offset (w : Flows) (f k : ℕ) : w.place f k = w.host_addr + BitVec.ofNat 64
    (CORE_COUNT * PAGE_SIZE + f * SIZE_MSG + ((w.flow f).places.getD k 0).toNat) := by
  rw [place_eq, Flows.buffer, BitVec.ofNat_add, BitVec.ofNat_add, BitVec.ofNat_toNat, BitVec.setWidth_eq]
  simp only [BitVec.add_assoc]

/-- Every place lies in the window of its flow. -/
theorem place_lt (hw : w.Fits) (hf : f < w.flows) (hk : k < (w.flow f).data.length) :
    ((w.flow f).places.getD k 0).toNat < SIZE_MSG := by
  have hlen := (w.flow f).places_length
  rw [List.getD_eq_getElem _ _ (by omega)]
  exact hw.window f hf _ (List.getElem_mem _)

/-- No byte of host memory belongs to two bytes of the messages. -/
theorem place_inj (hw : w.Fits) {g j : ℕ} (hf : f < w.flows) (hg : g < w.flows)
    (hk : k < (w.flow f).data.length) (hj : j < (w.flow g).data.length)
    (heq : w.place f k = w.place g j) : f = g ∧ k = j := by
  have hpage : PAGE_SIZE = 4096 := rfl
  have hcores : CORE_COUNT = 16 := rfl
  have hmsg : SIZE_MSG = 8388608 := rfl
  have hflows := hw.flows
  have hx := place_lt hw hf hk
  have hy := place_lt hw hg hj
  rw [place_offset, place_offset, BitVec.add_right_inj, hpage, hcores, hmsg] at heq
  rw [hcores] at hflows
  rw [hmsg] at hx hy
  have hnat := ofNat_inj (by omega) (by omega) heq
  have hfg : f = g := by omega
  subst hfg
  refine ⟨rfl, ?_⟩
  have hlen := (w.flow f).places_length
  have hval : (w.flow f).places.getD k 0 = (w.flow f).places.getD j 0 := BitVec.eq_of_toNat_eq (by omega)
  rw [List.getD_eq_getElem _ _ (by omega), List.getD_eq_getElem _ _ (by omega)] at hval
  exact ((hw.nodup f hf).getElem_inj_iff).mp hval

/-- The flags lie beside the buffers, so no answer overwrites a message. -/
theorem flag_ne_place (hw : w.Fits) {gid j : ℕ} (hgid : gid < CORE_COUNT) (hj : j < 8) (hf : f < w.flows)
    (hk : k < (w.flow f).data.length) : w.flag_addr gid j ≠ w.place f k := by
  intro heq
  have hpage : PAGE_SIZE = 4096 := rfl
  have hcores : CORE_COUNT = 16 := rfl
  have hmsg : SIZE_MSG = 8388608 := rfl
  have hflows := hw.flows
  have hx := place_lt hw hf hk
  rw [place_offset, Flows.flag_addr, BitVec.add_right_inj, hpage, hcores, hmsg] at heq
  rw [hcores] at hflows hgid
  rw [hmsg] at hx
  have := ofNat_inj (by omega) (by omega) heq
  omega

/-! ## No handler waits for good -/

theorem flag_addr_inj {g g' k : ℕ} (hg : g < CORE_COUNT) (hg' : g' < CORE_COUNT) (hk : k < 8)
    (heq : w.flag_addr g 0 = w.flag_addr g' k) : g = g' := by
  have hpage : PAGE_SIZE = 4096 := rfl
  have hcores : CORE_COUNT = 16 := rfl
  rw [Flows.flag_addr, Flows.flag_addr, BitVec.add_right_inj, hpage] at heq
  rw [hcores] at hg hg'
  have := ofNat_inj (by omega) (by omega) heq
  omega

/-- The flag that a task polls is that of its HPU. -/
theorem config_flag_addr (w : Flows) (gid : BitVec 32) :
    w.config.flag_addr gid = w.flag_addr gid.toNat 0 := by
  rw [Flows.flag_addr, Nat.add_zero]
  rfl

/-- Two tasks that run are on two HPUs. -/
theorem hpu_ne (h₀ : w.Prepared s₀) (h : Reach w.config s₀ s) {t u : FlowTask} {b : BitVec 32}
    {ops' : List Op} {pc' : ℕ} (htu : t ≠ u) (ht : s.status t = .running a ops pc)
    (hu : s.status u = .running b ops' pc') : w.hpu_gid t ≠ w.hpu_gid u := by
  have hidle : ∀ status t u a ops pc, w.config.ready status t → status u = .running a ops pc →
      w.hpu_gid t ≠ w.hpu_gid u := fun status t u a ops pc hr => hr.2 u a ops pc
  exact running_together (R := fun t u => w.hpu_gid t ≠ w.hpu_gid u) Ne.symm h₀.initial hidle h htu ht hu

/-- While a completion handler runs, nothing else writes where the host looks for its flag. -/
theorem flag_only (hw : w.Fits) (h₀ : w.Prepared s₀) (h : Reach w.config s₀ s) (f : ℕ) :
    s.Only (.th f) 0 (w.flag_addr (w.hpu_gid (.th f)).toNat 0 + BitVec.ofNat 64 0) := by
  intro a ops pc hr g hmem l1 v hwr
  obtain ⟨log, hinv⟩ := inv_of_reach (length_bytes_lt w) h₀.initial (fun s hs => sys_sound hw h₀ hs) h
  obtain ⟨b, ops', pc', hfl⟩ := hinv.flying g hmem
  have hissued : Issued s.status g.owner b ops' g.slot g.call :=
    ⟨pc', by rw [hfl.running]; rfl, hfl.slot, hfl.op⟩
  obtain ⟨v', hwr'⟩ := writes_any (seen b (w.config.packet g.owner) ops' g.slot) hwr
  rw [BitVec.add_zero] at hwr'
  rcases issued_writes hw h₀ h hissued hwr' with ⟨f', k, hf', hk, hy, -⟩ | ⟨f', k, ho, hslot, hk, hy⟩
  · exact absurd hy (flag_ne_place hw (hw.hpu_gid _) (by decide) hf' hk)
  · refine ⟨?_, hslot⟩
    -- a flag at the same place is of the same HPU, which runs one task
    have hgid := flag_addr_inj (hw.hpu_gid _) (hw.hpu_gid _) hk hy
    by_contra hne
    rw [ho] at hne
    exact hpu_ne h₀ h hne (ho ▸ hfl.running) hr (BitVec.eq_of_toNat_eq hgid.symm)

/-- The completion handler has written its flag, and the host finds it. -/
theorem flag_there (hw : w.Fits) (h₀ : w.Prepared s₀) (h : Reach w.config s₀ s)
    {flag : fpspin_flag_t} (hr : s.status (.th f) = .running a (host_req (w.args (.th f) a) flag) 2)
    (hflight : s.flight = []) : s.host (w.flag_addr (w.hpu_gid (.th f)).toNat 0) = flag.dma_id := by
  have hdest : (Command.write_to_host (HOST_ADDR_HPU (w.args (.th f) a)) flag.data).dest =
      some (w.flag_addr (w.hpu_gid (.th f)).toNat 0) := by
    rw [Command.dest, hpu_line (w.args (.th f) a) hw.aligned (hw.hpu_gid (.th f)), Flows.flag_addr,
      Nat.add_zero]
    rfl
  have hwritten := written_of_reach (length_bytes_lt w) h₀.initial (fun s hs => sys_sound hw h₀ hs)
    hdest (Nat.zero_lt_succ 7) (fun s hs => flag_only hw h₀ hs f) h hr rfl Nat.zero_lt_two
  have hnot : ¬s.Pending (.th f) 0 0 := fun ⟨g, hmem, _⟩ => by
    rw [hflight] at hmem
    exact absurd hmem List.not_mem_nil
  have hbyte := hwritten.resolve_right hnot
  rw [BitVec.add_zero] at hbyte
  rw [hbyte, Command.byte]
  exact flag_dma_id _

/-- A command of the handlers is not empty, and only completion handlers poll. -/
theorem flows_live (hw : w.Fits) (h₀ : w.Prepared s₀) : w.config.Live s₀ where
  sound s h := sys_sound hw h₀ h
  -- no command is empty: transfers have bytes, the acknowledgement its headers, the flag its
  -- word
  nonempty s h t a ops pc hp p c hop := by
    have hissues := issues_of_reach hw h₀ h hp
    cases t with
    | hh f =>
        rw [show ops = [] from hissues] at hop
        exact absurd hop (by simp)
    | ph f i =>
        obtain ⟨hf, hi, issued, hcopies⟩ := hissues
        rw [hcopies.ops] at hop
        rcases acked_cases hop with ⟨c', hc', hop', -⟩ | ⟨-, ⟨-, hop'⟩ | ⟨-, hop'⟩⟩
        · rw [Op.issue.injEq] at hop'
          obtain ⟨m, hm, rfl⟩ := List.mem_map.mp hc'
          rw [hop', command_size (hcopies.size_lt hi hm)]
          exact hcopies.nonempty m hm
        · exact absurd hop' nofun
        · rw [Op.issue.injEq] at hop'
          rw [hop']
          exact (by decide : 0 < (BitVec.ofNat 32 sizeof_slmp_pkt_hdr_t).toNat)
    | th f =>
        obtain ⟨flag, rfl⟩ := hissues
        rw [(host_req_issue hop).2]
        exact (by decide : 0 < 8)
  -- only a completion handler polls, and its flag has landed when no command is in flight
  flag s h hflight t a ops pc hr gid dma_id hop := by
    have hp : (s.status t).program = some (a, ops, pc) := by
      rw [hr]
      rfl
    have hissues := issues_of_reach hw h₀ h hp
    cases t with
    | hh f =>
        rw [show ops = [] from hissues] at hop
        exact absurd hop (by simp)
    | ph f i =>
        obtain ⟨-, -, issued, hcopies⟩ := hissues
        rw [hcopies.ops] at hop
        rcases acked_cases hop with ⟨c', hc', hop', -⟩ | ⟨-, ⟨-, hop'⟩ | ⟨-, hop'⟩⟩ <;>
          exact absurd hop' nofun
    | th f =>
        obtain ⟨flag, rfl⟩ := hissues
        obtain ⟨rfl, rfl, rfl⟩ := host_req_poll hop
        rw [config_flag_addr]
        exact flag_there hw h₀ h hr hflight

/-- **From every state of a run all messages can be unpacked to their end**: the completion
handlers return, once the host has answered each of them. -/
theorem flows_complete (hw : w.Fits) (h₀ : w.Prepared s₀) (h : Reach w.config s₀ s) :
    ∃ s', Reach w.config s s' ∧ ∀ f < w.flows, ∃ a ops, s'.status (.th f) = .done a ops := by
  obtain ⟨s', hr, hdone⟩ := completes (ranked w) (length_bytes_lt w) h₀.initial (flows_live hw h₀) h
  exact ⟨s', hr, fun f hf => hdone (.th f) ((mem_tasks w _).mpr hf)⟩

theorem flows_complete_demo : ∃ s', Reach demo.config demo_start s' ∧
    ∀ f < 2, ∃ a ops, s'.status (.th f) = .done a ops :=
  flows_complete demo_fits demo_prepared .refl

/-! ## The messages in host memory -/

/-- What lasts of being ready: the payload handlers of a flow are over. -/
def Flows.Complete (w : Flows) (status : FlowTask → Status) : FlowTask → Prop
  | .th f => ∀ i < (w.flow f).count, ∃ a ops, status (.ph f i) = .done a ops
  | _ => True

theorem complete_mono (w : Flows) (status status' : FlowTask → Status) (t : FlowTask)
    (h : ∀ u a ops, status u = .done a ops → status' u = .done a ops)
    (hc : w.Complete status t) : w.Complete status' t := by
  cases t with
  | hh f => trivial
  | ph f i => trivial
  | th f =>
      intro i hi
      obtain ⟨a, ops, hd⟩ := hc i hi
      exact ⟨a, ops, h _ a ops hd⟩

/-- The scheduler starts a completion handler only when its flow is complete. -/
theorem complete_of_ready (w : Flows) (status : FlowTask → Status) (t : FlowTask)
    (h : w.config.ready status t) : w.Complete status t := by
  cases t with
  | hh f => trivial
  | ph f i => trivial
  | th f => exact h.1.2

/-- **Once the completion handler of a flow runs, every byte of its message is in its place,
in whatever order packets and transfers went; nothing but these places and the flags has
changed, and the flag of an HPU only when it ran a completion handler.** -/
theorem flows_unpack (hw : w.Fits) (h₀ : w.Prepared s₀) (h : Reach w.config s₀ s) :
    (∀ f < w.flows, s.status (.th f) ≠ .waiting →
      ∀ k < (w.flow f).data.length, s.host (w.place f k) = (w.flow f).data.getD k 0) ∧
    (∀ y, (∀ f < w.flows, ∀ k < (w.flow f).data.length, y ≠ w.place f k) →
      (∀ f, s.status (.th f) ≠ .waiting → ∀ k < 8, y ≠ w.flag_addr (w.hpu_gid (.th f)).toNat k) →
      s.host y = s₀.host y) := by
  obtain ⟨log, hinv⟩ := inv_of_reach (length_bytes_lt w) h₀.initial (fun s hs => sys_sound hw h₀ hs) h
  refine ⟨fun f hf hstart k hk => ?_, fun y hplace hflag => ?_⟩
  · -- the payload handler of the packet with byte `k` is over
    obtain ⟨a, ops, pc, hp⟩ := program_of_ne_waiting hstart
    have hcomplete : ∀ i < (w.flow f).count, ∃ a ops, s.status (.ph f i) = .done a ops :=
      ready_of_reach h₀.initial (complete_of_ready w) (complete_mono w) h hp
    obtain ⟨i, hi, hle, hlt⟩ := (w.flow f).cover k hk
    obtain ⟨b, ops', hdone⟩ := hcomplete i hi
    obtain ⟨-, -, issued, hcopies⟩ : w.Issues (.ph f i) b ops' :=
      issues_of_reach hw h₀ h (by rw [hdone]; rfl)
    obtain ⟨m, hm, hwr⟩ := (hcopies.writes hi).mpr
      ⟨k - ((w.flow f).packet i).off, by omega, rfl, rfl⟩
    rw [Nat.add_sub_cancel' hle] at hwr
    obtain ⟨p, hp, rfl⟩ := List.mem_iff_getElem.mp hm
    have hop : ops'[p]? = some (.issue issued[p].command) := by
      rw [hcopies.ops, acked, List.getElem?_append_left (by simpa using hp)]
      simp [hp]
    have hland := (hinv.of_done hdone hop).host (w.place f k, (w.flow f).data.getD k 0) (by
      rw [seen, hcopies.ops, acked_content _ (by simpa using hp.le)]
      exact hwr)
    refine hinv.host_of_mem hland fun t a ops p c hi w' hw' hy' => ?_
    rcases issued_writes hw h₀ h hi hw' with ⟨g, j, hg, hj, hy, hv⟩ | ⟨g, j, -, -, hj, hy⟩
    · obtain ⟨rfl, rfl⟩ := place_inj hw hg hf hj hk (hy.symm.trans hy')
      exact hv
    · exact absurd (hy.symm.trans hy') (flag_ne_place hw (hw.hpu_gid _) hj hf hk)
  · refine hinv.host_of_not_mem fun t a ops p c hi w' hw' hy' => ?_
    rcases issued_writes hw h₀ h hi hw' with ⟨f, k, hf, hk, hy, -⟩ | ⟨f, k, rfl, -, hk, hy⟩
    · exact hplace f hf k hk (hy'.symm.trans hy)
    · refine hflag f (fun hwait => ?_) k hk (hy'.symm.trans hy)
      obtain ⟨pc, hp, -⟩ := hi
      rw [hwait] at hp
      exact absurd hp (by simp [Status.program])

theorem flows_unpack_demo : ∃ s, Reach demo.config demo_start s ∧
    ∀ f < 2, ∀ k < 16, s.host (demo.place f k) = BitVec.ofNat 8 (k + 1) := by
  obtain ⟨s, hr, hdone⟩ := completes (ranked demo) (length_bytes_lt demo) demo_prepared.initial
    (flows_live demo_fits demo_prepared) (s := demo_start) .refl
  refine ⟨s, hr, fun f hf k hk => ?_⟩
  obtain ⟨a, ops, hth⟩ := hdone (.th f) ((mem_tasks demo _).mpr hf)
  have hdata : ∀ k < 16, demo_data.getD k 0 = BitVec.ofNat 8 (k + 1) := by decide
  rw [← hdata k hk]
  exact (flows_unpack demo_fits demo_prepared hr).1 f hf (by rw [hth]; exact nofun) k hk

end Pspin.Datatypes
