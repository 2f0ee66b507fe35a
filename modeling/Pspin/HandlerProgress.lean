/-
Handlers never block each other for good.

Commands under way can always go on, a handler can always take its next step, and a task
that is ready finds packet memory once nothing runs any more. A handler that polls needs the
host: once its commands are complete the host finds the flag and answers it. So from every
state of a run there is a way to a state in which every task is over, if the tasks can be put
in an order in which each is ready once those before it are over.
-/
import Mathlib.Algebra.Order.BigOperators.Group.List
import Mathlib.Algebra.Order.Ring.Nat
import Pspin.HandlerRuns

set_option autoImplicit false

open Function (update)

namespace Pspin.Handlers

variable {T S : Type} [DecidableEq T] {cfg : Config T S} {s s' s₀ : Sys T S} {t u : T}
variable {a b : BitVec 32} {ops : List Op} {pc : ℕ}

theorem Reach.trans {s₁ s₂ s₃ : Sys T S} (h : Reach cfg s₁ s₂) (h' : Reach cfg s₂ s₃) :
    Reach cfg s₁ s₃ := Relation.ReflTransGen.trans h h'

theorem Step.reach (h : Step cfg s s') : Reach cfg s s' := Relation.ReflTransGen.single h

/-- No command is empty or has moved more bytes than it has. -/
def Sized (fs : List (Flight T)) : Prop := ∀ f ∈ fs, f.out.length ≤ f.call.size ∧ 0 < f.call.size

/-- What keeps a handler from waiting for good: no command is empty, and once all commands
are complete the host finds the flag that a handler polls for. -/
structure Config.Live (cfg : Config T S) (s₀ : Sys T S) : Prop where
  sound : ∀ s, Reach cfg s₀ s → s.Sound cfg
  nonempty : ∀ s, Reach cfg s₀ s → ∀ t a ops pc, (s.status t).program = some (a, ops, pc) →
    ∀ (p : ℕ) (c : Command), ops[p]? = some (.issue c) → 0 < c.size
  flag : ∀ s, Reach cfg s₀ s → s.flight = [] → ∀ t a ops pc, s.status t = .running a ops pc →
    ∀ gid dma_id, ops[pc]? = some (.poll gid dma_id) → s.host (cfg.flag_addr gid) = dma_id

/-- The first command moves its bytes and completes. -/
theorem land (cfg : Config T S) (f : Flight T) (gs : List (Flight T)) (hf : s.flight = f :: gs)
    (hsize : f.out.length ≤ f.call.size) (hpos : 0 < f.call.size) :
    ∃ s', Reach cfg s s' ∧ s'.status = s.status ∧ s'.mem = s.mem ∧ s'.flight = gs := by
  obtain ⟨k, hk⟩ := Nat.exists_eq_add_of_le hsize
  induction k generalizing s f with
  | zero => exact ⟨_, (Step.complete f [] gs hf hk.symm hpos).reach, rfl, rfl, rfl⟩
  | succ k ih =>
      have hstep : Step cfg s _ := Step.beat f [] gs hf (by omega)
      have hlen : (f.out ++ [f.call.byte s.l1 f.out.length]).length = f.out.length + 1 := by
        rw [List.length_append, List.length_singleton]
      have hle : f.out.length + 1 ≤ f.call.size := by omega
      have hrest : f.call.size = (f.out ++ [f.call.byte s.l1 f.out.length]).length + k := by
        rw [hlen]
        omega
      obtain ⟨s', hr, hs⟩ := ih (s := { s with
          host := s.moveByte f
          flight := { f with out := f.out ++ [f.call.byte s.l1 f.out.length] } :: gs })
        { f with out := f.out ++ [f.call.byte s.l1 f.out.length] } rfl
        (hlen.trans_le hle) hpos hrest
      exact ⟨s', hstep.reach.trans hr, hs⟩

/-- All commands complete. -/
theorem land_all (cfg : Config T S) (hsize : Sized s.flight) :
    ∃ s', Reach cfg s s' ∧ s'.status = s.status ∧ s'.mem = s.mem ∧ s'.flight = [] := by
  generalize hfs : s.flight = fs at hsize
  induction fs generalizing s with
  | nil => exact ⟨s, .refl, rfl, rfl, hfs⟩
  | cons f gs ih =>
      obtain ⟨s₁, hr₁, hst₁, hmem₁, hf₁⟩ :=
        land cfg f gs hfs (hsize f List.mem_cons_self).1 (hsize f List.mem_cons_self).2
      obtain ⟨s₂, hr₂, hst₂, hmem₂, hf₂⟩ := ih hf₁ fun g hg => hsize g (List.mem_cons_of_mem _ hg)
      exact ⟨s₂, hr₁.trans hr₂, hst₂.trans hst₁, hmem₂.trans hmem₁, hf₂⟩

/-- A handler takes its next step when no command is under way. To go on polling it needs
the host's answer first. -/
theorem next_op (hlive : cfg.Live s₀) (h : Reach cfg s₀ s) (hr : s.status t = .running a ops pc)
    (hf : s.flight = []) (hlt : pc < ops.length) :
    ∃ s', Reach cfg s s' ∧ s'.status = update s.status t (.running a ops (pc + 1)) ∧
      s'.flight = [] := by
  have hat : ops[pc]? = some (ops.get ⟨pc, hlt⟩) := List.getElem?_eq_getElem hlt
  -- one step for each kind of operation
  cases hop : ops.get ⟨pc, hlt⟩ with
  | store off bytes =>
      rw [hop] at hat
      exact ⟨_, (Step.store t a ops pc off bytes hr hat).reach, rfl, hf⟩
  | issue c =>
      -- a command is moved to its end at once, so that nothing is in flight again
      rw [hop] at hat
      have hstep : Step cfg s _ := Step.issue t a ops pc c hr hat
      have hpos := hlive.nonempty s h t a ops pc (by rw [hr]; rfl) pc c hat
      obtain ⟨s₁, hr₁, hst₁, -, hf₁⟩ := land cfg (s := { s with
          flight := ⟨t, pc, c, []⟩ :: s.flight
          status := update s.status t (.running a ops (pc + 1)) })
        ⟨t, pc, c, []⟩ s.flight rfl (Nat.zero_le _) hpos
      exact ⟨s₁, hstep.reach.trans hr₁, hst₁, hf₁.trans hf⟩
  -- nothing is in flight, so there is nothing to wait for
  | wait back =>
      rw [hop] at hat
      refine ⟨_, (Step.pass t a ops pc _ hr hat fun f hmem => ?_).reach, rfl, hf⟩
      rw [hf] at hmem
      exact absurd hmem List.not_mem_nil
  -- the host answers, and then the handler finds what it looks for
  | poll gid dma_id =>
      rw [hop] at hat
      have hflag := hlive.flag s h hf t a ops pc hr gid dma_id hat
      have hanswer : Step cfg s _ := Step.answer gid
      have hpass : Step cfg { s with flag := update s.flag gid (s.host (cfg.flag_addr gid)) } _ :=
        Step.pass t a ops pc _ hr hat ((Function.update_self ..).trans hflag)
      exact ⟨_, hanswer.reach.trans hpass.reach, rfl, hf⟩

/-- A handler runs to its end. -/
theorem finish_task (hlive : cfg.Live s₀) (h : Reach cfg s₀ s) (hr : s.status t = .running a ops pc)
    (hpc : pc ≤ ops.length) (hf : s.flight = []) :
    ∃ s', Reach cfg s s' ∧ s'.status = update s.status t (.done a ops) ∧ s'.flight = [] := by
  obtain ⟨k, hk⟩ := Nat.exists_eq_add_of_le hpc
  induction k generalizing s pc with
  | zero =>
      rw [Nat.add_zero] at hk
      rw [← hk] at hr
      exact ⟨_, (Step.finish t a ops hr fun f hmem => by
        rw [hf] at hmem
        exact absurd hmem List.not_mem_nil).reach, rfl, hf⟩
  | succ k ih =>
      have hlt : pc < ops.length := by omega
      obtain ⟨s₁, hr₁, hst₁, hf₁⟩ := next_op hlive h hr hf hlt
      have hrun : s₁.status t = .running a ops (pc + 1) := by rw [hst₁, Function.update_self]
      obtain ⟨s₂, hr₂, hst₂, hf₂⟩ := ih (h.trans hr₁) hrun hlt hf₁ (by omega)
      refine ⟨s₂, hr₁.trans hr₂, ?_, hf₂⟩
      rw [hst₂, hst₁, Function.update_idem]

/-- No handler runs and no command is under way. -/
structure Quiet (s : Sys T S) : Prop where
  flight : s.flight = []
  status : ∀ t a ops pc, s.status t ≠ .running a ops pc

/-- No handler is behind its end. -/
def Sys.Inside (s : Sys T S) : Prop :=
  ∀ t a ops pc, s.status t = .running a ops pc → pc ≤ ops.length

theorem inside_of_reach (h₀ : s₀.Initial) (h : Reach cfg s₀ s) : s.Inside := by
  -- only the status of one task changes in a step
  have hkeep : ∀ {s : Sys T S} {u : T} {st : Status}, s.Inside →
      (∀ a ops pc, st = .running a ops pc → pc ≤ ops.length) →
      ∀ t a ops pc, update s.status u st t = .running a ops pc → pc ≤ ops.length := by
    intro s u st hs hst t a ops pc ht
    by_cases htu : t = u
    · rw [htu, Function.update_self] at ht
      exact hst a ops pc ht
    · rw [Function.update_of_ne htu] at ht
      exact hs t a ops pc ht
  -- an operation that is taken lies in the program
  have hnext : ∀ {a : BitVec 32} {ops : List Op} {pc : ℕ} {op : Op}, ops[pc]? = some op →
      ∀ b ops' pc', Status.running a ops (pc + 1) = .running b ops' pc' → pc' ≤ ops'.length := by
    intro a ops pc op hop b ops' pc' heq
    rw [Status.running.injEq] at heq
    obtain ⟨-, rfl, rfl⟩ := heq
    exact (List.getElem?_eq_some_iff.mp hop).1
  induction h with
  | refl =>
      intro t a ops pc ht
      rw [h₀.waiting] at ht
      exact absurd ht nofun
  | tail hr hstep ih =>
      cases hstep with
      | start t a hw hready hfree =>
          refine hkeep ih fun b ops' pc' heq => ?_
          rw [Status.running.injEq] at heq
          rw [← heq.2.2]
          exact Nat.zero_le _
      | store t a ops pc off bytes hr hop => exact hkeep ih (hnext hop)
      | issue t a ops pc c hr hop => exact hkeep ih (hnext hop)
      | pass t a ops pc op hr hop hp => exact hkeep ih (hnext hop)
      | beat f fs gs hf hmore => exact ih
      | complete f fs gs hf hall hpos => exact ih
      | finish t a ops hr hno => exact hkeep ih fun b ops' pc' heq => absurd heq nofun
      | answer gid => exact ih

/-- What runs comes to its end. -/
theorem quiet_reach (hlive : cfg.Live s₀) (l : List T) (h : Reach cfg s₀ s)
    (hl : ∀ t a ops pc, s.status t = .running a ops pc → t ∈ l) (hin : s.Inside) (hf : s.flight = []) :
    ∃ s', Reach cfg s s' ∧ Quiet s' := by
  -- induction on the tasks that may be running; each is taken to its end
  induction l generalizing s with
  | nil => exact ⟨s, .refl, hf, fun t a ops pc ht => absurd (hl t a ops pc ht) List.not_mem_nil⟩
  | cons t l ih =>
      have hskip : (∀ a ops pc, s.status t ≠ .running a ops pc) →
          ∀ u b ops pc, s.status u = .running b ops pc → u ∈ l := by
        intro hno u b ops pc hu
        refine (List.mem_cons.mp (hl u b ops pc hu)).resolve_left fun hut => ?_
        exact hno b ops pc (hut ▸ hu)
      cases ht : s.status t with
      | running a ops pc =>
          obtain ⟨s₁, hr₁, hst₁, hf₁⟩ := finish_task hlive h ht (hin t a ops pc ht) hf
          -- the others are where they were
          have hat : ∀ u b ops' pc', s₁.status u = .running b ops' pc' →
              u ≠ t ∧ s.status u = .running b ops' pc' := by
            intro u b ops' pc' hu
            rw [hst₁] at hu
            by_cases hut : u = t
            · rw [hut, Function.update_self] at hu
              exact absurd hu nofun
            · rw [Function.update_of_ne hut] at hu
              exact ⟨hut, hu⟩
          obtain ⟨s₂, hr₂, hq⟩ := ih (h.trans hr₁)
            (fun u b ops' pc' hu => (List.mem_cons.mp (hl u b ops' pc' (hat u b ops' pc' hu).2)).resolve_left
              (hat u b ops' pc' hu).1)
            (fun u b ops' pc' hu => hin u b ops' pc' (hat u b ops' pc' hu).2) hf₁
          exact ⟨s₂, hr₁.trans hr₂, hq⟩
      | waiting => exact ih h (hskip fun a ops pc => by rw [ht]; exact nofun) hin hf
      | done a ops => exact ih h (hskip fun b ops' pc => by rw [ht]; exact nofun) hin hf

/-- A task that is ready runs alone, in any packet memory. -/
theorem run_task (hlive : cfg.Live s₀) (h : Reach cfg s₀ s) (hq : Quiet s)
    (hw : s.status t = .waiting) (hready : cfg.ready s.status t) :
    ∃ s' a ops, Reach cfg s s' ∧ Quiet s' ∧ s'.status = update s.status t (.done a ops) := by
  have hstep : Step cfg s _ := Step.start t 0 hw hready fun u b ops pc hu =>
    absurd hu (hq.status u b ops pc)
  obtain ⟨s₁, hr₁, hst₁, hf₁⟩ := finish_task (s := { s with
      l1 := place 0 (cfg.packet t) s.l1
      mem := (cfg.handler t s.mem 0).2
      status := update s.status t (.running 0 (cfg.handler t s.mem 0).1 0) })
    hlive (h.trans hstep.reach) (Function.update_self ..) (Nat.zero_le _) hq.flight
  rw [Function.update_idem] at hst₁
  refine ⟨s₁, 0, _, hstep.reach.trans hr₁, ⟨hf₁, fun u b ops pc hu => ?_⟩, hst₁⟩
  rw [hst₁] at hu
  by_cases hut : u = t
  · rw [hut, Function.update_self] at hu
    exact absurd hu nofun
  · rw [Function.update_of_ne hut] at hu
    exact hq.status u b ops pc hu

/-- The tasks that `P` holds of are over. -/
def Over (status : T → Status) (P : T → Prop) : Prop := ∀ t, P t → ∃ a ops, status t = .done a ops

theorem Over.update {status : T → Status} {P : T → Prop} (h : Over status P) (t : T) (a : BitVec 32)
    (ops : List Op) : Over (update status t (.done a ops)) fun u => P u ∨ u = t := by
  intro u hu
  by_cases hut : u = t
  · rw [hut, Function.update_self]
    exact ⟨a, ops, rfl⟩
  · rw [Function.update_of_ne hut]
    exact h u (hu.resolve_right hut)

/-- Tasks that are all ready run one after the other. -/
theorem run_list (hlive : cfg.Live s₀) (h : Reach cfg s₀ s) (P : T → Prop) (l : List T)
    (hq : Quiet s) (hover : Over s.status P)
    (hready : ∀ t ∈ l, ∀ status : T → Status, (∀ u a ops pc, status u ≠ .running a ops pc) →
      Over status P → cfg.ready status t) :
    ∃ s', Reach cfg s s' ∧ Quiet s' ∧ Over s'.status fun t => P t ∨ t ∈ l := by
  -- induction on the list, so the last task of it is started first
  induction l with
  | nil => exact ⟨s, .refl, hq, fun t ht => hover t (ht.resolve_right List.not_mem_nil)⟩
  | cons t l ih =>
      obtain ⟨s₁, hr₁, hq₁, hover₁⟩ := ih fun u hu => hready u (List.mem_cons_of_mem _ hu)
      cases ht : s₁.status t with
      | running a ops pc => exact absurd ht (hq₁.status t a ops pc)
      | done a ops =>
          refine ⟨s₁, hr₁, hq₁, fun u hu => ?_⟩
          rcases hu with hu | hu
          · exact hover₁ u (.inl hu)
          · rcases List.mem_cons.mp hu with rfl | hu
            · exact ⟨a, ops, ht⟩
            · exact hover₁ u (.inr hu)
      | waiting =>
          -- no task runs, so the scheduler may start this one
          have hrt : cfg.ready s₁.status t := hready t List.mem_cons_self s₁.status hq₁.status
            fun u hu => hover₁ u (.inl hu)
          obtain ⟨s₂, a, ops, hr₂, hq₂, hst₂⟩ := run_task hlive (h.trans hr₁) hq₁ ht hrt
          refine ⟨s₂, hr₁.trans hr₂, hq₂, fun u hu => ?_⟩
          rw [hst₂]
          refine hover₁.update t a ops u ?_
          rcases hu with hu | hu
          · exact .inl (.inl hu)
          · exact (List.mem_cons.mp hu).elim .inr fun hu => .inl (.inr hu)

/-- The tasks that can ever be ready, with ranks. -/
structure Config.Ranked (cfg : Config T S) (tasks : List T) (rank : T → ℕ) : Prop where
  mem : ∀ status t, cfg.ready status t → t ∈ tasks
  ready : ∀ t ∈ tasks, ∀ status : T → Status, (∀ u a ops pc, status u ≠ .running a ops pc) →
    Over status (fun u => u ∈ tasks ∧ rank u < rank t) → cfg.ready status t

/-- **No state of a run is a dead end.** -/
theorem completes {tasks : List T} {rank : T → ℕ} (hrank : cfg.Ranked tasks rank)
    (hlen : ∀ t, (cfg.packet t).length < 2 ^ 32) (h₀ : s₀.Initial) (hlive : cfg.Live s₀)
    (h : Reach cfg s₀ s) :
    ∃ s', Reach cfg s s' ∧ ∀ t ∈ tasks, ∃ a ops, s'.status t = .done a ops := by
  obtain ⟨log, hinv⟩ := inv_of_reach hlen h₀ hlive.sound h
  have hsize : Sized s.flight := fun f hf => by
    obtain ⟨a, ops, pc, hfl⟩ := hinv.flying f hf
    exact ⟨hfl.size, hlive.nonempty s h f.owner a ops pc (by rw [hfl.running]; rfl) f.slot f.call hfl.op⟩
  have hmem : ∀ t a ops pc, s.status t = .running a ops pc → t ∈ tasks := by
    intro t a ops pc ht
    exact ready_of_reach (P := fun _ t => t ∈ tasks) h₀ hrank.mem (fun _ _ _ _ ht => ht) h
      (by rw [ht]; rfl)
  -- first everything that has been started comes to its end
  obtain ⟨s₁, hr₁, hq₁⟩ : ∃ s', Reach cfg s s' ∧ Quiet s' := by
    obtain ⟨s₁, hr₁, hst₁, -, hf₁⟩ := land_all cfg hsize
    have hin := inside_of_reach h₀ h
    obtain ⟨s₂, hr₂, hq⟩ := quiet_reach hlive tasks (h.trans hr₁)
      (fun t a ops pc => by rw [hst₁]; exact hmem t a ops pc)
      (fun t a ops pc => by rw [hst₁]; exact hin t a ops pc) hf₁
    exact ⟨s₂, hr₁.trans hr₂, hq⟩
  have h₁ := h.trans hr₁
  -- then the tasks run, rank by rank
  suffices hrun : ∀ r, ∃ s', Reach cfg s₁ s' ∧ Quiet s' ∧
      Over s'.status fun t => t ∈ tasks ∧ rank t < r by
    obtain ⟨s', hr, -, hover⟩ := hrun ((tasks.map rank).sum + 1)
    exact ⟨s', hr₁.trans hr, fun t ht => hover t
      ⟨ht, Nat.lt_succ_of_le (List.single_le_sum (by simp) _ (List.mem_map_of_mem ht))⟩⟩
  intro r
  induction r with
  | zero => exact ⟨s₁, .refl, hq₁, fun t ht => absurd ht.2 (Nat.not_lt_zero _)⟩
  | succ r ih =>
      obtain ⟨s₂, hr₂, hq₂, hover₂⟩ := ih
      obtain ⟨s₃, hr₃, hq₃, hover₃⟩ := run_list hlive (h₁.trans hr₂) _ (tasks.filter fun t => rank t = r) hq₂ hover₂
        fun t ht status hno hov => by
          obtain ⟨hin, heq⟩ := List.mem_filter.mp ht
          have heq : rank t = r := by simpa using heq
          rw [← heq] at hov
          exact hrank.ready t hin status hno hov
      refine ⟨s₃, hr₂.trans hr₃, hq₃, fun t ht => hover₃ t ?_⟩
      rcases Nat.lt_succ_iff_lt_or_eq.mp ht.2 with hlt | heq
      · exact .inl ⟨ht.1, hlt⟩
      · exact .inr (List.mem_filter.mpr ⟨ht.1, by simpa using heq⟩)

end Pspin.Handlers
