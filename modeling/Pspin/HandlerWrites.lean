/-
What a running task writes to a place of its own.

Several tasks may write to one place of host memory, such as the flag of an HPU, one after
the other. If no two of them write there while they both run, then a task that is running
finds there what it wrote itself, as soon as its command has moved the byte
(`written_of_reach`). That is what the host finds when it looks for the flag.
-/
import Pspin.HandlerRuns

set_option autoImplicit false

open Function (update)

namespace Pspin.Handlers

variable {T S : Type} [DecidableEq T] {cfg : Config T S} {s s' s₀ : Sys T S} {t : T}
variable {a : BitVec 32} {p pc : ℕ} {ops : List Op} {c : Command}
variable {host₀ : Host} {log : List (BitVec 64 × Byte)}

/-! ## Steps -/

/-- `t` has just been started. -/
structure Started (cfg : Config T S) (s s' : Sys T S) (t : T) (pc : ℕ) : Prop where
  ready : cfg.ready s.status t
  others : ∀ u, u ≠ t → s'.status u = s.status u
  pc : pc = 0

/-- A task that runs after a step ran before it, has just been started, or has taken one of
its steps; a command that it issued is then under way. -/
theorem Step.running (h : Step cfg s s') (hr : s'.status t = .running a ops pc) :
    s.status t = .running a ops pc ∨ Started cfg s s' t pc ∨
      ∃ q, pc = q + 1 ∧ s.status t = .running a ops q ∧
        ∀ c, ops[q]? = some (.issue c) → ⟨t, q, c, []⟩ ∈ s'.flight := by
  -- a step changes the status of one task, its own
  have hown : ∀ {u : T} {st : Status}, update s.status u st t = .running a ops pc →
      s.status t = .running a ops pc ∨ t = u ∧ st = .running a ops pc := by
    intro u st hu
    by_cases htu : t = u
    · subst htu
      rw [Function.update_self] at hu
      exact .inr ⟨rfl, hu⟩
    · rw [Function.update_of_ne htu] at hu
      exact .inl hu
  -- the steps that change a status; the others leave it
  cases h with
  | start u b hw hready hfree =>
      refine (hown hr).imp id fun ⟨htu, heq⟩ => .inl ?_
      rw [Status.running.injEq] at heq
      subst htu
      exact ⟨hready, fun v hv => Function.update_of_ne hv .., heq.2.2.symm⟩
  | store u b ops' pc' off bytes hr' hop =>
      refine (hown hr).imp id fun ⟨htu, heq⟩ => .inr ⟨pc', ?_⟩
      rw [Status.running.injEq] at heq
      obtain ⟨rfl, rfl, rfl⟩ := heq
      refine ⟨rfl, htu ▸ hr', fun c hc => ?_⟩
      rw [hop, Option.some.injEq] at hc
      exact absurd hc (by simp)
  | issue u b ops' pc' c hr' hop =>
      refine (hown hr).imp id fun ⟨htu, heq⟩ => .inr ⟨pc', ?_⟩
      rw [Status.running.injEq] at heq
      obtain ⟨rfl, rfl, rfl⟩ := heq
      refine ⟨rfl, htu ▸ hr', fun c' hc => ?_⟩
      rw [hop, Option.some.injEq, Op.issue.injEq] at hc
      rw [htu, ← hc]
      exact List.mem_cons_self
  | pass u b ops' pc' op hr' hop hp =>
      refine (hown hr).imp id fun ⟨htu, heq⟩ => .inr ⟨pc', ?_⟩
      rw [Status.running.injEq] at heq
      obtain ⟨rfl, rfl, rfl⟩ := heq
      refine ⟨rfl, htu ▸ hr', fun c hc => ?_⟩
      rw [hop, Option.some.injEq] at hc
      exact absurd hc (hp.waits.1 c)
  | beat f fs gs hf hmore => exact .inl hr
  | complete f fs gs hf hall hpos => exact .inl hr
  | finish u b ops' hr' hno =>
      exact (hown hr).imp id fun ⟨_, heq⟩ => absurd heq nofun
  | answer gid => exact .inl hr

/-- Tasks that run together stand in every relation that holds between a task that is ready
and those that run. -/
theorem running_together {R : T → T → Prop} (hsymm : ∀ {t u}, R t u → R u t) (h₀ : s₀.Initial)
    (hready : ∀ status t u a ops pc, cfg.ready status t → status u = .running a ops pc → R t u)
    (h : Reach cfg s₀ s) {t u : T} {a b : BitVec 32} {ops ops' : List Op} {pc pc' : ℕ} (htu : t ≠ u)
    (ht : s.status t = .running a ops pc) (hu : s.status u = .running b ops' pc') : R t u := by
  induction h generalizing a b ops ops' pc pc' with
  | refl =>
      rw [h₀.waiting] at ht
      exact absurd ht nofun
  | tail hreach hstep ih =>
      -- the one that has just been started was ready while the other ran
      rcases hstep.running ht with ht' | hstart | ⟨q, -, ht', -⟩
      · rcases hstep.running hu with hu' | hstart | ⟨q, -, hu', -⟩
        · exact ih ht' hu'
        · rw [hstart.others t htu] at ht
          exact hsymm (hready _ u t a ops pc hstart.ready ht)
        · exact ih ht' hu'
      · rw [hstart.others u (Ne.symm htu)] at hu
        exact hready _ t u b ops' pc' hstart.ready hu
      · rcases hstep.running hu with hu' | hstart | ⟨q', -, hu', -⟩
        · exact ih ht' hu'
        · rw [hstart.others t htu] at ht
          exact hsymm (hready _ u t a ops pc hstart.ready ht)
        · exact ih ht' hu'

omit [DecidableEq T] in
theorem Command.size_lt (c : Command) : c.size < 2 ^ 64 := by
  cases c with
  | dma_to_host host_addr nic_addr length => exact length.isLt.trans (by decide)
  | send_packet data length => exact length.isLt.trans (by decide)
  | write_to_host host_addr user_data => exact (by decide : 8 < 2 ^ 64)

omit [DecidableEq T] in
/-- Where a command writes does not depend on what it reads. -/
theorem writes_any {c : Command} {l1 : L1} {y : BitVec 64} {v : Byte} (l1' : L1)
    (h : (y, v) ∈ c.writes l1) : ∃ v', (y, v') ∈ c.writes l1' := by
  cases hd : c.dest with
  | none =>
      rw [Command.writes, hd] at h
      exact absurd h List.not_mem_nil
  | some host_addr =>
      obtain ⟨k, hk, hy, -⟩ := (mem_writes_iff hd).mp h
      exact ⟨_, (mem_writes_iff hd).mpr ⟨k, hk, hy, rfl⟩⟩

/-- A step moves a byte of one command, or leaves host memory and all commands that are not
complete. -/
theorem Step.moves (h : Step cfg s s') :
    (s'.host = s.host ∧ ∀ f ∈ s.flight, f ∈ s'.flight ∨ f.out.length = f.call.size) ∨
      ∃ f fs gs, s.flight = fs ++ f :: gs ∧ f.out.length < f.call.size ∧ s'.host = s.moveByte f ∧
        s'.flight = fs ++ { f with out := f.out ++ [f.call.byte s.l1 f.out.length] } :: gs := by
  cases h with
  | start t a hw hready hfree => exact .inl ⟨rfl, fun f hf => .inl hf⟩
  | store t a ops pc off bytes hr hop => exact .inl ⟨rfl, fun f hf => .inl hf⟩
  | issue t a ops pc c hr hop => exact .inl ⟨rfl, fun f hf => .inl (List.mem_cons_of_mem _ hf)⟩
  | pass t a ops pc op hr hop hp => exact .inl ⟨rfl, fun f hf => .inl hf⟩
  | beat f fs gs hf hmore => exact .inr ⟨f, fs, gs, hf, hmore, rfl, rfl⟩
  | complete f fs gs hf hall hpos =>
      refine .inl ⟨rfl, fun g hg => ?_⟩
      rw [hf, List.mem_append, List.mem_cons] at hg
      rcases hg with hg | rfl | hg
      · exact .inl (List.mem_append_left _ hg)
      · exact .inr hall
      · exact .inl (List.mem_append_right _ hg)
  | finish t a ops hr hno => exact .inl ⟨rfl, fun f hf => .inl hf⟩
  | answer gid => exact .inl ⟨rfl, fun f hf => .inl hf⟩

/-! ## A place of one task -/

/-- Command `p` of `t` has yet to move its byte `j`. -/
def Sys.Pending (s : Sys T S) (t : T) (p j : ℕ) : Prop :=
  ∃ f ∈ s.flight, f.owner = t ∧ f.slot = p ∧ f.out.length ≤ j

/-- While `t` runs, no command writes at `y` but its command `p`. -/
def Sys.Only (s : Sys T S) (t : T) (p : ℕ) (y : BitVec 64) : Prop :=
  ∀ a ops pc, s.status t = .running a ops pc → ∀ f ∈ s.flight, ∀ l1 v, (y, v) ∈ f.call.writes l1 →
    f.owner = t ∧ f.slot = p

section Only

variable {host_addr : BitVec 64} {j : ℕ}

omit [DecidableEq T] in
/-- A command under way is the one that its step of the program issued. -/
theorem Inv.call {f : Flight T} (h : Inv cfg host₀ log s) (hf : f ∈ s.flight)
    (hr : s.status t = .running a ops pc) (hop : ops[p]? = some (.issue c)) (ho : f.owner = t)
    (hsl : f.slot = p) : f.call = c ∧ p < pc := by
  subst ho hsl
  obtain ⟨b, ops', pc', hfl⟩ := h.flying f hf
  have hrun := hfl.running
  rw [hr, Status.running.injEq] at hrun
  obtain ⟨rfl, rfl, rfl⟩ := hrun
  have hcc := hfl.op.symm.trans hop
  rw [Option.some.injEq, Op.issue.injEq] at hcc
  exact ⟨hcc, hfl.slot⟩

omit [DecidableEq T] in
/-- A byte that is moved is byte `j` of command `p`, or goes elsewhere and leaves what
byte `j` has become. -/
theorem written_beat {f : Flight T} {fs gs : List (Flight T)} (h : Inv cfg host₀ log s)
    (hs : s.Sound cfg) (hlen : ∀ t, (cfg.packet t).length < 2 ^ 32) (hf : s.flight = fs ++ f :: gs)
    (hmore : f.out.length < f.call.size) (hr : s.status t = .running a ops pc)
    (hop : ops[p]? = some (.issue c)) (hd : c.dest = some host_addr) (hj : j < c.size)
    (honly : s.Only t p (host_addr + BitVec.ofNat 64 j))
    (hw : s.host (host_addr + BitVec.ofNat 64 j) = c.byte (seen a (cfg.packet t) ops p) j ∨
      s.Pending t p j) :
    s.moveByte f (host_addr + BitVec.ofNat 64 j) = c.byte (seen a (cfg.packet t) ops p) j ∨
      ∃ g ∈ fs ++ { f with out := f.out ++ [f.call.byte s.l1 f.out.length] } :: gs,
        g.owner = t ∧ g.slot = p ∧ g.out.length ≤ j := by
  have hfmem : f ∈ s.flight := by
    rw [hf]
    simp
  have hcall : f.owner = t → f.slot = p → f.call = c ∧ p < pc := h.call hfmem hr hop
  -- the byte moved goes elsewhere, or it is this byte of this command
  have hmove : s.moveByte f (host_addr + BitVec.ofNat 64 j) = s.host (host_addr + BitVec.ofNat 64 j) ∨
      f.owner = t ∧ f.slot = p ∧ f.out.length = j := by
    rw [Sys.moveByte]
    cases hfd : f.call.dest with
    | none => exact .inl rfl
    | some host_addr' =>
        by_cases hy : host_addr + BitVec.ofNat 64 j = host_addr' + BitVec.ofNat 64 f.out.length
        · obtain ⟨ho, hsl⟩ := honly a ops pc hr f hfmem s.l1 (f.call.byte s.l1 f.out.length)
            ((mem_writes_iff hfd).mpr ⟨_, hmore, hy, rfl⟩)
          have hcc := (hcall ho hsl).1
          rw [hcc, hd, Option.some.injEq] at hfd
          rw [hfd, BitVec.add_right_inj] at hy
          have hlt := c.size_lt
          rw [hcc] at hmore
          have hnat := congrArg BitVec.toNat hy
          rw [BitVec.toNat_ofNat, BitVec.toNat_ofNat, Nat.mod_eq_of_lt (by omega),
            Nat.mod_eq_of_lt (by omega)] at hnat
          exact .inr ⟨ho, hsl, hnat.symm⟩
        · exact .inl (Function.update_of_ne hy ..)
  -- this one: it is what the task saw when it issued the command
  by_cases hthis : f.owner = t ∧ f.slot = p ∧ f.out.length = j
  · obtain ⟨ho, hsl, hj'⟩ := hthis
    obtain ⟨hcc, hpc⟩ := hcall ho hsl
    left
    rw [Sys.moveByte, hcc, hd, hj']
    change update s.host _ (c.byte s.l1 j) _ = _
    rw [Function.update_self]
    exact byte_eq (hs t a ops pc (by rw [hr]; rfl)) (hlen t) hop hpc.le hj
      (h.placed.holds t a ops pc hr)
  · -- another one: the byte is there as before, or it is still to be moved
    rw [hmove.resolve_right hthis]
    apply hw.imp id
    rintro ⟨g, hg, ho, hsl, hle⟩
    rw [hf, List.mem_append, List.mem_cons] at hg
    rcases hg with hg | rfl | hg
    · exact ⟨g, List.mem_append_left _ hg, ho, hsl, hle⟩
    · -- the same command at another byte, which is an earlier one
      refine ⟨_, List.mem_append_right _ List.mem_cons_self, ho, hsl, ?_⟩
      change (g.out ++ _).length ≤ j
      rw [List.length_append, List.length_singleton]
      have hne : g.out.length ≠ j := fun hj' => hthis ⟨ho, hsl, hj'⟩
      omega
    · exact ⟨g, List.mem_append_right _ (List.mem_cons_of_mem _ hg), ho, hsl, hle⟩

theorem written_step (h : Inv cfg host₀ log s) (hs : s.Sound cfg)
    (hlen : ∀ t, (cfg.packet t).length < 2 ^ 32) (hstep : Step cfg s s')
    (hr : s.status t = .running a ops pc) (hop : ops[p]? = some (.issue c))
    (hd : c.dest = some host_addr) (hj : j < c.size)
    (honly : s.Only t p (host_addr + BitVec.ofNat 64 j))
    (hw : s.host (host_addr + BitVec.ofNat 64 j) = c.byte (seen a (cfg.packet t) ops p) j ∨
      s.Pending t p j) :
    s'.host (host_addr + BitVec.ofNat 64 j) = c.byte (seen a (cfg.packet t) ops p) j ∨
      s'.Pending t p j := by
  rcases hstep.moves with ⟨hhost, hkeep⟩ | ⟨f, fs, gs, hf, hmore, hhost, hflight⟩
  · rw [hhost]
    apply hw.imp id
    rintro ⟨g, hg, ho, hsl, hle⟩
    rcases hkeep g hg with hg' | hall
    · exact ⟨g, hg', ho, hsl, hle⟩
    · -- a command that is complete has moved byte `j`
      rw [(h.call hg hr hop ho hsl).1] at hall
      omega
  · rw [hhost, Sys.Pending, hflight]
    exact written_beat h hs hlen hf hmore hr hop hd hj honly hw

/-- **What a running task has written to a place of its own stays there**, whatever others
have written there before it was started. -/
theorem written_of_reach (hlen : ∀ t, (cfg.packet t).length < 2 ^ 32) (h₀ : s₀.Initial)
    (hs : ∀ s, Reach cfg s₀ s → s.Sound cfg) (hd : c.dest = some host_addr) (hj : j < c.size)
    (honly : ∀ s, Reach cfg s₀ s → s.Only t p (host_addr + BitVec.ofNat 64 j))
    (h : Reach cfg s₀ s) (hr : s.status t = .running a ops pc) (hop : ops[p]? = some (.issue c))
    (hp : p < pc) :
    s.host (host_addr + BitVec.ofNat 64 j) = c.byte (seen a (cfg.packet t) ops p) j ∨
      s.Pending t p j := by
  induction h generalizing pc with
  | refl =>
      rw [h₀.waiting] at hr
      exact absurd hr nofun
  | tail hreach hstep ih =>
      obtain ⟨log, hinv⟩ := inv_of_reach hlen h₀ hs hreach
      rcases hstep.running hr with hr' | hstart | ⟨q, rfl, hr', hissue⟩
      · exact written_step hinv (hs _ hreach) hlen hstep hr' hop hd hj (honly _ hreach) (ih hr' hp)
      · rw [hstart.pc] at hp
        exact absurd hp (Nat.not_lt_zero p)
      · rcases Nat.lt_succ_iff_lt_or_eq.mp hp with hlt | rfl
        · exact written_step hinv (hs _ hreach) hlen hstep hr' hop hd hj (honly _ hreach)
            (ih hr' hlt)
        · -- this step issues it
          exact .inr ⟨_, hissue c hop, rfl, rfl, Nat.zero_le j⟩

end Only

end Pspin.Handlers
