import Sustemu.Inorder.Accounting
import Sustemu.Inorder.Dual

/-!
# The pace of the pipeline

With or without a branch predictor, an empty latch is never followed by another
one once the pipeline has filled. So at most every second cycle outside of a
freeze goes without a retired instruction, and only a load can freeze the
pipeline, once and for as long as memory takes to answer.
-/

set_option autoImplicit false

namespace Sustemu

open Lib

/-- What the counters say about `n` cycles: the first instruction retires in the fifth, at most one bubble goes before each
instruction, and a load freezes the pipeline for at most 39 cycles. -/
structure PipeStats.Paced (s : PipeStats) (n : Nat) : Prop where
  most : s.insts ≤ n - 4
  least : n ≤ 4 + 2 * s.insts + s.stallCacheMiss
  freezes : s.stallCacheMiss ≤ 39 * (s.insts + 1)

namespace Inorder

variable {σ β : Type} {vm : VMem σ} {cfg : PipeConfig β} {e e' e₀ : Inorder σ β}

/-! ## Counters -/

/-- The counters and the freeze. -/
def tally (e : Inorder σ β) : Nat × Nat × Nat × Nat :=
  (e.stats.cycles, e.stats.insts, e.stats.stallCacheMiss, e.pipe.memStallRem)

theorem stageWB_tally (done : stageWB vm cfg e = some e') : e'.tally =
    (e.stats.cycles, e.stats.insts + (e.pipe.reg .wb).valid.toNat, e.stats.stallCacheMiss, e.pipe.memStallRem) := by
  unfold stageWB at done
  simp only at done
  cases valid : (e.pipe.reg .wb).valid with
  | true =>
      rw [valid, if_pos rfl] at done
      obtain ⟨e₀, checked, rfl⟩ := Option.map_eq_some_iff.mp done
      obtain ⟨pipe, stats, _⟩ := difftestStep_keeps checked
      unfold tally
      rw [← pipe, ← stats]
      rfl
  | false =>
      rw [valid, if_neg Bool.false_ne_true] at done
      cases done
      rfl

/-- Only a load that goes through the memory stage freezes the pipeline. -/
theorem stageMEM_tally (thawed : e.pipe.memStallRem = 0) (done : stageMEM vm e = some e') :
    ∃ freeze, freeze ≤ 39 * (e.pipe.reg .mem).valid.toNat ∧
      e'.tally = (e.stats.cycles, e.stats.insts, e.stats.stallCacheMiss + freeze, freeze) := by
  unfold stageMEM at done
  simp only at done
  cases valid : (e.pipe.reg .mem).valid with
  | true =>
      rw [valid, if_pos rfl] at done
      obtain ⟨⟨ir, lat, world⟩, read, rfl⟩ := Option.map_eq_some_iff.mp done
      simp only
      generalize stored : ({ e with world := world, pipe := e.pipe.set .mem ⟨ir, true⟩ } : Inorder σ β) = s
      have kept : (s.accessed ir).tally = e.tally := by
        subst stored
        unfold accessed
        split <;> rfl
      have short := irMemAccessLat_le read
      unfold missed
      split
      · refine ⟨lat - 1, by rw [Bool.toNat_true]; omega, ?_⟩
        unfold tally at kept ⊢
        simp only [Prod.mk.injEq] at kept ⊢
        exact ⟨kept.1, kept.2.1, congrArg (· + (lat - 1)) kept.2.2.1, trivial⟩
      · refine ⟨0, Nat.zero_le _, ?_⟩
        rw [kept]
        unfold tally
        rw [thawed]
        rfl
  | false =>
      rw [valid, if_neg Bool.false_ne_true] at done
      cases done
      refine ⟨0, Nat.zero_le _, ?_⟩
      unfold tally
      rw [thawed]
      rfl

theorem stageEX_tally (done : stageEX vm cfg e = some e') : e'.tally = e.tally := by
  unfold stageEX at done
  simp only at done
  split at done
  · obtain ⟨⟨ir, sys⟩, _, rfl⟩ := Option.map_eq_some_iff.mp done
    unfold resolved
    simp only
    split
    · split <;> split <;> rfl
    · split <;> rfl
  · cases done
    rfl

theorem stageID_tally (e : Inorder σ β) : (stageID e).1.tally = e.tally := by
  unfold stageID
  simp only
  split
  · split <;> rfl
  · rfl

theorem stageIF_tally {stalled : Bool} (done : stageIF vm cfg stalled e = some e') : e'.tally = e.tally := by
  unfold stageIF at done
  cases stalled with
  | true =>
      cases done
      rfl
  | false =>
      simp only [Bool.false_eq_true, if_false] at done
      obtain ⟨⟨word, world⟩, _, rfl⟩ := Option.map_eq_some_iff.mp done
      rfl

/-- The stages retire what is in the write-back latch, and freeze the pipeline only for what is in the memory latch. -/
theorem stages_tally (thawed : e.pipe.memStallRem = 0) (done : stages vm cfg e = some e') :
    ∃ freeze, freeze ≤ 39 * (e.pipe.reg .mem).valid.toNat ∧ e'.tally =
      (e.stats.cycles, e.stats.insts + (e.pipe.reg .wb).valid.toNat, e.stats.stallCacheMiss + freeze, freeze) := by
  simp only [stages, Option.bind_eq_bind, Option.bind_eq_some_iff] at done
  obtain ⟨e₁, wrote, e₂, accessed, e₃, executed, e₅, fetched, same⟩ := done
  cases same
  obtain ⟨_, _, _, _, _, _, _, _, _, latch, _, rem⟩ := stageWB_spec wrote
  obtain ⟨freeze, short, counts⟩ := stageMEM_tally (rem.trans thawed) accessed
  rw [latch .mem (by decide)] at short
  refine ⟨freeze, short, ?_⟩
  have written := stageWB_tally wrote
  unfold tally at written
  simp only [Prod.mk.injEq] at written
  rw [written.1, written.2.1, written.2.2.1] at counts
  exact (stageIF_tally fetched).trans ((stageID_tally e₃).trans ((stageEX_tally executed).trans counts))

/-! ## Latches -/

/-- Behind an instruction there is at most one empty latch. -/
structure Dense (p : Pipeline) : Prop where
  ex : (p.reg .ex).valid = true → (p.reg .id).valid = true
  mem : (p.reg .mem).valid = true → (p.reg .ex).valid = true ∨ (p.reg .id).valid = true
  wb : (p.reg .wb).valid = true → (p.reg .mem).valid = true ∨ (p.reg .ex).valid = true

/-- How far the oldest instruction is from the write-back stage. -/
def lag (p : Pipeline) : Nat :=
  if (p.reg .wb).valid then 0
  else if (p.reg .mem).valid then 1
  else if (p.reg .ex).valid then 2
  else if (p.reg .id).valid then 3
  else 4

/-- The decode latch is full at the end of a cycle, and its instruction is executed next unless one is executed already. -/
theorem Cycle.front_full {mem ex : PipeReg} {w₁ w₂ : World σ} (cycle : Cycle vm cfg e e' e₀ mem ex w₁ w₂) :
    (e'.pipe.reg .id).valid = true ∧
      ((e.pipe.reg .ex).valid = false → (e'.pipe.reg .ex).valid = (e.pipe.reg .id).valid) := by
  have front := cycle.front
  generalize decoded : decodeStage e.written.gpr mem ex (cfg.steer ex (e.pipe.reg .id) e.pipe.fetchPc).1 = result at front
  have kept : result.1.valid = (cfg.steer ex (e.pipe.reg .id) e.pipe.fetchPc).1.valid ∧
      (result.2 = true → result.1.valid = true ∧ ex.valid = true) := by
    rw [← decoded]
    unfold decodeStage
    split
    · next full =>
        split
        · next waits =>
            unfold loadUse at waits
            simp only [Bool.and_eq_true] at waits
            exact ⟨full.symm, fun _ => ⟨rfl, waits.1.1⟩⟩
        · exact ⟨full.symm, fun absurdity => absurd absurdity Bool.false_ne_true⟩
    · exact ⟨rfl, fun absurdity => absurd absurdity Bool.false_ne_true⟩
  cases stalled : result.2 with
  | true =>
      rw [stalled] at front
      obtain ⟨full, executing⟩ := kept.2 stalled
      cases front with
      | stall _ id =>
          refine ⟨by rw [id]; exact full, fun empty => ?_⟩
          rw [cycle.execute.valid, empty] at executing
          cases executing
  | false =>
      rw [stalled] at front
      cases front with
      | fetch _ _ execute id =>
          refine ⟨by rw [id], fun empty => ?_⟩
          have straight : ¬cfg.redirects ex := by
            rintro ⟨executing, _⟩
            rw [cycle.execute.valid, empty] at executing
            cases executing
          rw [execute, kept.1, PipeConfig.steer, if_neg straight]

theorem Cycle.dense {mem ex : PipeReg} {w₁ w₂ : World σ} (cycle : Cycle vm cfg e e' e₀ mem ex w₁ w₂)
    (dense : Dense e.pipe) : Dense e'.pipe := by
  obtain ⟨full, moves⟩ := cycle.front_full
  have fromMem : (e'.pipe.reg .wb).valid = (e.pipe.reg .mem).valid := by rw [cycle.wbLatch, cycle.memory.valid]
  have fromEx : (e'.pipe.reg .mem).valid = (e.pipe.reg .ex).valid := by rw [cycle.memLatch, cycle.execute.valid]
  refine ⟨fun _ => full, fun _ => .inr full, fun live => ?_⟩
  rw [fromMem] at live
  cases executing : (e.pipe.reg .ex).valid with
  | true => exact .inl (fromEx.trans executing)
  | false =>
      rcases dense.mem live with absurdity | decoded
      · rw [executing] at absurdity
        cases absurdity
      · exact .inr ((moves executing).trans decoded)

/-- The oldest instruction moves on, and the next one is at most one latch behind it. -/
theorem Cycle.lag {mem ex : PipeReg} {w₁ w₂ : World σ} (cycle : Cycle vm cfg e e' e₀ mem ex w₁ w₂) (dense : Dense e.pipe) :
    if (e.pipe.reg .wb).valid then Inorder.lag e'.pipe ≤ 1 else Inorder.lag e'.pipe + 1 = Inorder.lag e.pipe := by
  obtain ⟨full, moves⟩ := cycle.front_full
  have fromMem : (e'.pipe.reg .wb).valid = (e.pipe.reg .mem).valid := by rw [cycle.wbLatch, cycle.memory.valid]
  have fromEx : (e'.pipe.reg .mem).valid = (e.pipe.reg .ex).valid := by rw [cycle.memLatch, cycle.execute.valid]
  obtain ⟨behindEx, behindMem, behindWb⟩ := dense
  unfold Inorder.lag
  rw [fromMem, fromEx, full]
  cases wb : (e.pipe.reg .wb).valid with
  | true =>
      rw [wb] at behindWb
      rcases behindWb rfl with mem | ex
      · simp [mem]
      · cases (e.pipe.reg .mem).valid <;> simp [ex]
  | false =>
      cases mem : (e.pipe.reg .mem).valid with
      | true => simp
      | false =>
          cases ex : (e.pipe.reg .ex).valid with
          | true => simp
          | false =>
              rw [moves ex]
              cases (e.pipe.reg .id).valid <;> simp

/-! ## Cycles -/

/-- The pipeline is filled without gaps and keeps the pace. -/
structure OnPace (n : Nat) (log : List PipeEvent) (e : Inorder σ β) : Prop where
  dense : Dense e.pipe
  retired : e.stats.insts = (retiredOf log).length
  fills : e.stats.insts + 4 ≤ n ∨ e.stats.insts = 0 ∧ 4 ≤ n + lag e.pipe
  least : n + e.pipe.memStallRem + lag e.pipe ≤ 4 + 2 * e.stats.insts + e.stats.stallCacheMiss
  freezes : e.stats.stallCacheMiss ≤ 39 * (e.stats.insts + (e.pipe.reg .wb).valid.toNat)

variable {n : Nat} {log : List PipeEvent}

theorem OnPace.paced (pace : OnPace n log e) : e.stats.Paced n := by
  have once := Bool.toNat_le (e.pipe.reg .wb).valid
  have least := pace.least
  have freezes := pace.freezes
  refine ⟨?_, by omega, by omega⟩
  rcases pace.fills with filled | ⟨none, _⟩ <;> omega

/-- A cycle in which no stage is frozen. -/
theorem OnPace.stages (pace : OnPace n log e) (thawed : e.pipe.memStallRem = 0) (done : stages vm cfg e = some e') :
    ∃ events, e'.log = e.log ++ events ∧ OnPace (n + 1) (log ++ events) e' := by
  obtain ⟨_, mem, ex, _, _, cycle⟩ := stages_cycle done
  obtain ⟨freeze, short, counts⟩ := stages_tally thawed done
  unfold tally at counts
  simp only [Prod.mk.injEq] at counts
  obtain ⟨_, insts, missed, frozen⟩ := counts
  have moved := cycle.lag pace.dense
  have fills := pace.fills
  have least := pace.least
  have freezes := pace.freezes
  have stored : (e'.pipe.reg .wb).valid = (e.pipe.reg .mem).valid := by rw [cycle.wbLatch, cycle.memory.valid]
  refine ⟨_, cycle.log, cycle.dense pace.dense, ?_, ?_, ?_, ?_⟩
  · rw [insts, pace.retired, retiredOf_append, retiredOf_cycle, List.length_append]
    unfold PipeReg.content
    cases (e.pipe.reg .wb).valid <;> rfl
  · rw [insts]
    cases wb : (e.pipe.reg .wb).valid with
    | true =>
        have arrived : Inorder.lag e.pipe = 0 := if_pos wb
        rw [Bool.toNat_true]
        omega
    | false =>
        rw [wb, if_neg Bool.false_ne_true] at moved
        rw [Bool.toNat_false]
        omega
  · rw [insts, missed, frozen]
    cases wb : (e.pipe.reg .wb).valid with
    | true =>
        rw [wb, if_pos rfl] at moved
        rw [Bool.toNat_true]
        omega
    | false =>
        rw [wb, if_neg Bool.false_ne_true] at moved
        rw [Bool.toNat_false]
        omega
  · rw [insts, missed, stored]
    omega

/-- A cycle of a freeze. -/
theorem OnPace.frozen (pace : OnPace n log e) (freeze : 0 < e.pipe.memStallRem) : OnPace (n + 1) log e.frozen := by
  obtain ⟨dense, retired, fills, least, freezes⟩ := pace
  refine ⟨⟨dense.ex, dense.mem, dense.wb⟩, retired, ?_, ?_, freezes⟩
  · change e.stats.insts + 4 ≤ n + 1 ∨ e.stats.insts = 0 ∧ 4 ≤ n + 1 + Inorder.lag e.pipe
    omega
  · change n + 1 + (e.pipe.memStallRem - 1) + Inorder.lag e.pipe ≤ 4 + 2 * e.stats.insts + e.stats.stallCacheMiss
    omega

theorem OnPace.pipelineCycle (pace : OnPace n e.log e) (done : pipelineCycle vm cfg e = some e') :
    OnPace (n + 1) e'.log e' := by
  unfold Inorder.pipelineCycle at done
  split at done
  · next freeze =>
      cases done
      have after := pace.frozen freeze
      exact ⟨after.dense, after.retired, after.fills, after.least, after.freezes⟩
  · next thawed =>
      obtain ⟨e₁, ran, rfl⟩ := Option.map_eq_some_iff.mp done
      obtain ⟨events, logged, after⟩ := pace.stages (Nat.eq_zero_of_not_pos thawed) ran
      rw [← logged] at after
      exact ⟨after.dense, after.retired, after.fills, after.least, after.freezes⟩

theorem OnPace.pipelineCycleCore (pace : OnPace n log e) (done : pipelineCycleCore vm cfg e = some e') :
    ∃ events, e'.log = e.log ++ events ∧ OnPace (n + 1) (log ++ events) e' := by
  obtain ⟨e₁, ran, rfl⟩ := Option.map_eq_some_iff.mp done
  split at ran
  · next freeze =>
      cases ran
      have after := pace.frozen freeze
      rw [← List.append_nil log] at after
      exact ⟨[], (List.append_nil _).symm, after.dense, after.retired, after.fills, after.least, after.freezes⟩
  · next thawed =>
      obtain ⟨events, logged, after⟩ := pace.stages (Nat.eq_zero_of_not_pos thawed) ran
      exact ⟨events, logged, after.dense, after.retired, after.fills, after.least, after.freezes⟩

/-! ## Runs -/

theorem OnPace.run {k : Nat} (pace : OnPace n e.log e) (done : run vm cfg k e = some e') : OnPace (n + k) e'.log e' := by
  induction k generalizing n e with
  | zero =>
      cases done
      exact pace
  | succ k ih =>
      obtain ⟨e₁, cycled, later⟩ := Option.bind_eq_some_iff.mp done
      rw [Nat.add_succ, ← Nat.succ_add]
      exact ih (pace.pipelineCycle cycled) later

end Inorder

namespace InorderDual

variable {σ β : Type} {vm : VMem σ} {cfg : PipeConfig β} {m m' : InorderDual σ β} {n : Fin 2 → Nat}

/-- Both harts keep the pace in their own cycles. -/
theorem coreCycle_onPace {h : Fin 2} (pace : ∀ h, (m.engine h).OnPace (n h) (logOf h m.log))
    (done : m.coreCycle vm cfg h = some m') (h' : Fin 2) :
    (m'.engine h').OnPace (n h' + if h = h' then 1 else 0) (logOf h' m'.log) := by
  obtain ⟨e, cycled, rfl⟩ := Option.map_eq_some_iff.mp done
  obtain ⟨events, logged, after⟩ := (pace h).pipelineCycleCore cycled
  have log : e.log = events := logged
  by_cases same : h = h'
  · subst same
    have logs : logOf h (m.save h e).log = logOf h m.log ++ events := by
      rw [save, logOf_append, logOf_self, log]
    rw [if_pos rfl, logs]
    obtain ⟨dense, retired, fills, least, freezes⟩ := after
    have pipe : ((m.save h e).engine h).pipe = e.pipe := by simp [engine, save]
    have stats : ((m.save h e).engine h).stats = e.stats := by simp [engine, save]
    rw [← pipe] at dense
    rw [← stats] at retired
    rw [← pipe, ← stats] at fills least freezes
    exact ⟨dense, retired, fills, least, freezes⟩
  · have logs : logOf h' (m.save h e).log = logOf h' m.log := by
      rw [save, logOf_append, logOf_other (Ne.symm same), List.append_nil]
    rw [if_neg same, logs]
    obtain ⟨dense, retired, fills, least, freezes⟩ := pace h'
    have pipe : ((m.save h e).engine h').pipe = (m.engine h').pipe := by simp [engine, save, setAt_of_ne (Ne.symm same)]
    have stats : ((m.save h e).engine h').stats = (m.engine h').stats := by simp [engine, save, setAt_of_ne (Ne.symm same)]
    rw [← pipe] at dense
    rw [← stats] at retired
    rw [← pipe, ← stats] at fills least freezes
    exact ⟨dense, retired, fills, least, freezes⟩

theorem run_onPace {schedule : List (Fin 2)} (pace : ∀ h, (m.engine h).OnPace (n h) (logOf h m.log))
    (done : m.run vm cfg schedule = some m') (h : Fin 2) :
    (m'.engine h).OnPace (n h + schedule.count h) (logOf h m'.log) := by
  induction schedule generalizing m n with
  | nil =>
      cases done
      exact pace h
  | cons first rest ih =>
      obtain ⟨m₁, stepped, done⟩ := Option.bind_eq_some_iff.mp done
      have after := ih (coreCycle_onPace pace stepped) done
      simp only [List.count_cons, beq_iff_eq]
      rwa [Nat.add_comm (rest.count h), ← Nat.add_assoc]

end InorderDual

/-- Whatever the program, the predictor and the memory do, on one hart or on two under any schedule, the pipeline keeps its
pace in the cycles of each hart. -/
theorem pipeline_throughput {σ β : Type} (vm : VMem σ) (cfg : PipeConfig β) :
    (∀ (slots : Fin 4 → PipeReg) (cpu : CPUState) (world : World σ) (bpred : β) (diffCpu : CPUState) (diffInit : Bool)
      (n : Nat) (e : Inorder σ β), Inorder.run vm cfg n (.init cfg slots cpu world bpred diffCpu diffInit) = some e →
        e.stats.insts = (retiredOf e.log).length ∧ e.stats.Paced n) ∧
    ∀ (arch : Fin 2 → CoreArch) (world : World σ) (bpred : Fin 2 → β) (schedule : List (Fin 2)) (m : InorderDual σ β),
      (InorderDual.init cfg arch world bpred).run vm cfg schedule = some m → ∀ h,
        (m.core h).stats.insts = (retiredOf (logOf h m.log)).length ∧ (m.core h).stats.Paced (schedule.count h) := by
  have empty : ∀ (slots : Fin 4 → PipeReg) (pc : Word), Inorder.Dense (.init slots pc) := fun _ _ =>
    ⟨fun absurdity => absurd absurdity Bool.false_ne_true, fun absurdity => absurd absurdity Bool.false_ne_true,
      fun absurdity => absurd absurdity Bool.false_ne_true⟩
  constructor
  · intro slots cpu world bpred diffCpu diffInit n e done
    have start : (Inorder.init cfg slots cpu world bpred diffCpu diffInit).OnPace 0 [] :=
      ⟨empty .., rfl, .inr ⟨rfl, Nat.le_refl 4⟩, Nat.le_refl 4, Nat.zero_le _⟩
    have pace := Inorder.OnPace.run start done
    rw [Nat.zero_add] at pace
    exact ⟨pace.retired, pace.paced⟩
  · intro arch world bpred schedule m done h
    have start : ∀ h, ((InorderDual.init cfg arch world bpred).engine h).OnPace 0 [] := fun h =>
      ⟨empty .., rfl, .inr ⟨rfl, Nat.le_refl 4⟩, Nat.le_refl 4, Nat.zero_le _⟩
    have pace := InorderDual.run_onPace (m := .init cfg arch world bpred) (n := fun _ => 0) start done h
    rw [Nat.zero_add] at pace
    exact ⟨pace.retired, pace.paced⟩

/-- A load, its use and a jump on one hart; two harts that spin. -/
theorem pipeline_throughput_stalling : (∃ e : Inorder (MemState Unit) Unit,
    Inorder.run (hierarchy (.plain 1)) .plain 24
      (.init .plain (fun _ => .zero) ⟨.empty, mbase⟩ Inorder.stallingProgram () ⟨.empty, mbase⟩ false) = some e ∧
      e.stats.insts = (retiredOf e.log).length ∧ e.stats.Paced 24) ∧
    ∃ m : InorderDual (MemState Unit) Unit, (InorderDual.init .plain (fun _ => .save ⟨.empty, mbase⟩ Sys.init)
      Inorder.stallingProgram fun _ => ()).run (hierarchy (.plain 2)) .plain [0, 1, 0, 1, 1, 1, 1, 1, 0] = some m ∧ ∀ h,
        (m.core h).stats.insts = (retiredOf (logOf h m.log)).length ∧
          (m.core h).stats.Paced (List.count h [0, 1, 0, 1, 1, 1, 1, 1, 0]) := by
  have bounds := pipeline_throughput (hierarchy (.plain 1)) PipeConfig.plain
  have duo := pipeline_throughput (hierarchy (.plain 2)) PipeConfig.plain
  have single : (Inorder.run (hierarchy (.plain 1)) .plain 24
      (.init .plain (fun _ => .zero) ⟨.empty, mbase⟩ Inorder.stallingProgram () ⟨.empty, mbase⟩ false)).isSome = true := by
    decide +kernel
  have dual : ((InorderDual.init .plain (fun _ => .save ⟨.empty, mbase⟩ Sys.init) Inorder.stallingProgram fun _ => ()).run
      (hierarchy (.plain 2)) .plain [0, 1, 0, 1, 1, 1, 1, 1, 0]).isSome = true := by
    decide +kernel
  obtain ⟨e, done⟩ := Option.isSome_iff_exists.mp single
  obtain ⟨m, ran⟩ := Option.isSome_iff_exists.mp dual
  exact ⟨⟨e, done, bounds.1 _ _ _ _ _ _ 24 e done⟩, m, ran, duo.2 _ _ _ _ m ran⟩

end Sustemu
