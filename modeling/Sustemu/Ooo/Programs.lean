import Sustemu.Ooo.Difftest
import Sustemu.Cpu.Programs

/-!
# The out-of-order engine runs RV64I programs

What the engine has retired after any number of cycles is a prefix of the
computation of the program, its register file is the one the prefix leaves, and
its caches with the buffered stores hold the memory the prefix leaves.
-/

set_option autoImplicit false

namespace Sustemu

open Lib Lib.Rv64i

/-- What an instruction leaves behind in a state. -/
def Lib.Rv64i.Instr.retired (i : Instr) (s : State) : Retired where
  pc := s.pc
  write := (i.result s).filter fun write => write.1 ≠ 0
  store := i.stores s

theorem IRInst.Realizes.retired {ir : IRInst} {i : Instr} {s : State} (realizes : ir.Realizes i s) :
    ir.retired = i.retired s := by
  unfold IRInst.retired Instr.retired
  rw [Retired.mk.injEq]
  refine ⟨realizes.pc, ?_, realizes.stores⟩
  rw [← realizes.result]
  cases ir.rd with
  | none => rfl
  | some rd => by_cases zero : rd = 0 <;> simp [Option.filter, zero]

/-! ## The architectural state -/

namespace Engine

variable {σ β : Type} {vm : VMem σ} {cfg : OooConfig β} {e e' : Engine σ β} {Rep : World σ → Flat → Prop} {f : Flat}
  {t : Trace vm}

/-- Without differential testing the register file and the program counter are those of the trace. -/
structure Settled (t : Trace vm) (e : Engine σ β) : Prop where
  untested : e.difftestActive = false
  cpu : e.cpu = (t.state (commits e.log).length).cpu

theorem Settled.keep (settled : e.Settled t) (active : e'.difftestActive = e.difftestActive) (cpu : e'.cpu = e.cpu)
    (committed : commits e'.log = commits e.log) : e'.Settled t := by
  refine ⟨active.trans settled.untested, ?_⟩
  rw [cpu, committed]
  exact settled.cpu

theorem Settled.front (settled : e.Settled t) (step : e.FrontStep vm cfg e') : e'.Settled t := by
  cases step with
  | rename =>
      refine settled.keep rfl rfl (commits_quiet _ ?_)
      split <;> simp
  | note | compact | decode | fetch | skip | tick => exact settled.keep rfl rfl rfl

theorem Settled.commit (settled : e.Settled t) (known : ∀ n, t.Known f n) (standard : t.Standard) (ok : e.ooo.Ok)
    (sound : e.Sound Rep f (t.pc 0)) (refines : e.Refines t) (live : e.ooo.robCount ≠ 0)
    (ready : (e.ooo.rob e.ooo.robHead).ready = true) (step : Commits vm e e') : e'.Settled t := by
  obtain ⟨extra, log, mismatches⟩ := step.log
  have committed : (commits e'.log).length = (commits e.log).length + 1 := by
    rw [log, List.append_cons, commits_quiet _ ?_, commits_append, List.length_append]
    · rfl
    · rintro event member entry value rfl
      obtain ⟨_, mismatch⟩ := mismatches _ member
      cases mismatch
  obtain ⟨_, next, retired⟩ := refines.committed_head known ok sound standard live ready
  obtain ⟨_, gpr⟩ := committed_gpr ok live (congrArg Retired.result retired)
  have regs : e'.cpu.gpr = e.committed.cpu.gpr := by
    rw [step.regs settled.untested]
    rfl
  refine ⟨step.active.trans settled.untested, ?_⟩
  rw [committed]
  have after : e'.cpu.gpr = t.gpr ((commits e.log).length + 1) := by
    rw [regs, gpr, (known _).regs, settled.cpu]
    rfl
  have atPc : e'.cpu.pc = t.pc ((commits e.log).length + 1) := step.pc.trans next
  cases cpu : e'.cpu with
  | mk gpr pc =>
      rw [cpu] at after atPc
      simp only at after atPc
      rw [after, atPc]
      rfl

theorem Settled.back (settled : e.Settled t) (known : ∀ n, t.Known f n) (standard : t.Standard) (ok : e.ooo.Ok)
    (sound : e.Sound Rep f (t.pc 0)) (refines : e.Refines t) (step : e.BackStep vm cfg e') : e'.Settled t := by
  cases step with
  | note quiet =>
      refine settled.keep rfl rfl (commits_quiet _ ?_)
      rintro event member entry value rfl
      obtain ⟨_, _, line⟩ := quiet _ member
      cases line
  | drain | fill => exact settled.keep rfl rfl (commits_quiet _ (by simp))
  | commit live ready ordered faultless room stored checked =>
      exact settled.commit known standard ok sound refines live ready (commits_of_checked stored checked)
  | timer | exec | redirect | count | discard | address | storeDone | delay | probe | miss | loadFault | issue =>
      exact settled.keep rfl rfl rfl

/-- What the caches hold, with the buffered stores applied, is the memory of the trace. -/
theorem Refines.memory (refines : e.Refines t) :
    ((f.drained (drains e.log)).drained e.ooo.buffered).bytes = (t.memory f (commits e.log).length).bytes := by
  have whole : (f.drained (drains e.log)).drained e.ooo.buffered = f.drained (drains e.log ++ e.ooo.buffered) :=
    List.foldl_append.symm
  rw [whole, f.drained_bytes, refines.stores, t.memory_bytes]

/-- After any number of cycles from reset over a memory that holds the program, with differential testing off and whatever
nonzero targets the predictor gives, the engine has retired a prefix of the computation. -/
theorem engine_computes {δ : Type} (devices : Devices δ) (cfg : OooConfig β) (off : cfg.difftestEn = false)
    (targets : ∀ state pc raw, (cfg.bpred.predict state pc raw).1.taken = true →
      (cfg.bpred.predict state pc raw).1.btbHit = true → (cfg.bpred.predict state pc raw).1.target ≠ 0)
    {program : Program} (c : Computation program) (contained : c.Contained) (nested : c.Nested)
    (loaded : program.In (c.state 0).mem) (cpu : CPUState) (atPc : cpu.pc = (c.state 0).pc)
    (regs : ∀ r, cpu.gpr.get r = (c.state 0).reg r) (sys : Sys) (hart : sys.hartid = 0) (dev : δ) (bpred : β) (k : Nat)
    (e : Engine (MemState δ) β) (done : run (hierarchy ⟨1, prefetchHint, devices⟩) cfg k
      (Engine.init cfg cpu ⟨sys, MemState.init (c.state 0).mem dev⟩ bpred) = some e) :
    ∃ n, retirements e.log = (List.range n).map (fun i => (c.inst i).retired (c.state i)) ∧
      e.cpu.pc = (c.state n).pc ∧ (∀ r, e.cpu.gpr.get r = (c.state n).reg r) ∧
      ∃ g, Represents ⟨1, prefetchHint, devices⟩ g e.world ∧ (g.drained e.ooo.buffered).bytes = (c.state n).mem := by
  have law : CoherentMemory (hierarchy ⟨1, prefetchHint, devices⟩)
      fun w f => Represents ⟨1, prefetchHint, devices⟩ f w := hierarchy_coherent rfl
  have rep : Represents ⟨1, prefetchHint, devices⟩ ⟨(c.state 0).mem, ∅⟩ ⟨sys, MemState.init (c.state 0).mem dev⟩ :=
    ⟨init_represents _ _ dev, fun _ => hart⟩
  obtain ⟨t, _, start, computes⟩ := contained.trace law (m := ⟨cpu, ⟨sys, MemState.init (c.state 0).mem dev⟩⟩)
    ⟨atPc, regs, loaded, ∅, rep, fun _ _ _ _ => Set.notMem_empty _⟩ fun _ => .zero
  have standard := computes.standard contained nested
  have known := trace_known hart start standard
  have initial : (Engine.init cfg cpu ⟨sys, MemState.init (c.state 0).mem dev⟩ bpred).Settled t := by
    refine ⟨by simp [Engine.init, off], ?_⟩
    exact (congrArg Machine.cpu start).symm
  obtain ⟨_, sound, refines, settled⟩ := run_refines law known standard (fun _ _ _ => Set.notMem_empty _) targets
    (congrArg Machine.cpu start) rep bpred
    (fun _ _ ok sound refines _ settled step => settled.back known standard ok sound refines step)
    (fun _ _ _ settled step => settled.front step) initial done
  refine ⟨(commits e.log).length, ?_, ?_, ?_, _, (sound.loads.memory fun entry member => (refines.followed entry member).2).1,
    ?_⟩
  · rw [refines.retired]
    exact List.map_congr_left fun n _ => (computes.realizes n).retired
  · rw [settled.cpu]
    exact (computes.models _).pc
  · rw [settled.cpu]
    exact (computes.models _).regs
  · rw [refines.memory]
    exact computes.memory rfl _

/-- After forty cycles seven turns of the counting loop have retired. -/
theorem engine_computes_counting : ∃ (c : Computation (.ofList mbase counting)) (e : Engine (MemState Unit) Unit),
    c.state 0 = countingAt (countingWord 0) ∧ countingRun 40 = some e ∧ (retirements e.log).length = 28 ∧
      ∃ n, retirements e.log = (List.range n).map (fun i => (c.inst i).retired (c.state i)) ∧
        e.cpu.pc = (c.state n).pc ∧ (∀ r, e.cpu.gpr.get r = (c.state n).reg r) ∧
        ∃ g, Represents (.plain 1) g e.world ∧ (g.drained e.ooo.buffered).bytes = (c.state n).mem := by
  obtain ⟨c, start, counts⟩ := countingAt_computation (countingWord_behind 0)
  obtain ⟨e, done, holds⟩ := (Option.any_eq_true _ _).mp countingRun_forty
  obtain ⟨retired, _⟩ := Bool.and_eq_true_iff.mp holds
  have runs := engine_computes Devices.none .solo rfl (fun _ _ _ taken => absurd taken Bool.false_ne_true) c
    (fun n => (counts n).contained) (CountsBy.nested counts) (start ▸ countingAt_holds (countingWord 0))
    ⟨RegFile.empty.set 2 (countingWord 0), mbase + 4⟩ (by rw [start]; rfl) (start ▸ countingAt_regs (countingWord 0))
    Sys.init rfl () () 40 e (by rw [start]; exact done)
  exact ⟨c, e, start, done, of_decide_eq_true retired, runs⟩

end Engine

end Sustemu
