import Sustemu.Cpu.Isolation
import Sustemu.Inorder.Programs
import Sustemu.Ooo.Programs

/-!
# Two programs with disjoint data

Each hart runs a program of its own, or both run the same one, and no line of
memory is accessed by both. Whatever the schedule, each hart computes what its
program computes, and finds in memory what its program has put there.
-/

set_option autoImplicit false

namespace Sustemu

open Lib Lib.Rv64i

/-! ## Computations with disjoint data -/

section Computations

variable {program : Program}

/-- Whatever the computation ever accesses holds what it holds after `n` instructions. -/
def Lib.Rv64i.Computation.Finds (c : Computation program) (n : Nat) (mem : ByteMem) : Prop :=
  ∀ i addr width, (c.inst i).Accesses (c.state i) addr width →
    loadLE mem addr.toNat width = loadLE (c.state n).mem addr.toNat width

variable {σ : Type} {vm : VMem σ} {Rep : World σ → Flat → Prop} {c : Computation program} {t : Trace vm}

/-- A memory that agrees with the run on its footprint. -/
theorem Trace.Computes.finds (computes : t.Computes Rep c) {f : Flat} (start : f.bytes = (c.state 0).mem) {n : Nat}
    {mem : ByteMem} (agrees : ∀ byte, t.Footprint byte → mem byte = (t.memory f n).bytes byte) : c.Finds n mem := by
  intro i addr width accesses
  obtain ⟨access, rfl, rfl⟩ := (computes.realizes i).toEffect.accesses.mp accesses
  rw [← computes.memory start n]
  exact loadLE_congr fun byte low high => agrees byte ⟨i, .inr ⟨access, low, high⟩⟩

end Computations

/-! ## The out-of-order harts between cycles -/

namespace OooDual

variable {σ β : Type} {vm : VMem σ} {cfg : OooConfig β} {Rep : World σ → Flat → Prop} {f : Flat} {m m' : OooDual σ β}
  {t : Fin 2 → Trace vm} (standard : ∀ h, (t h).Standard) (known : ∀ h n, (t h).Known f n) (unwritten : f.written = ∅)
  (isolated : ∀ h, (t h).Isolated (t (otherHart h))) (law : CoherentMemory vm Rep)
  (shared : ∀ {w f} (sys : Sys), Rep w f → Rep { w with sys := sys } f)
  (targets : ∀ state pc raw, (cfg.bpred.predict state pc raw).1.taken = true →
    (cfg.bpred.predict state pc raw).1.btbHit = true → (cfg.bpred.predict state pc raw).1.target ≠ 0)

include standard known unwritten isolated law targets in
/-- The registers of a hart after one of its cycles. -/
theorem Refines.settled_cycle (refines : ∀ h, m.Refines Rep f t h) {h : Fin 2} {e : Engine σ β}
    (settled : (m.engine h).Settled (t h)) (cycled : (m.engine h).cycle vm cfg = some e) : e.Settled (t h) := by
  have knows := base_known standard known isolated refines h
  have fresh : ∀ n byte, InCode ((t h).pc n) byte → byte ∉ (m.base f h).written := by
    intro n byte inside written
    have initial := (base_outside standard isolated refines h ⟨n, .inl inside⟩).2 written
    rw [unwritten] at initial
    exact initial
  obtain ⟨ok, tidy, sound, refined⟩ := refines h
  have reached := Engine.cycle_keeps
    (P := fun e => (e.Sound Rep (m.base f h) ((t h).pc 0) ∧ e.Refines (t h)) ∧ e.Settled (t h))
    (fun _ _ ok holds step => ⟨⟨step.sound law ok holds.1.1, step.simulates knows ok holds.1.2 holds.1.1 (standard h) law⟩,
      holds.2.back knows (standard h) ok holds.1.1 holds.1.2 step⟩)
    (fun _ _ ok holds step => ⟨⟨step.sound law ((standard h).contained.mapped 0) ok holds.1.1,
      step.simulates knows ok holds.1.2 holds.1.1 (standard h) law fresh targets⟩, holds.2.front step⟩)
    ok tidy ⟨⟨sound, refined⟩, settled⟩ cycled
  exact reached.2.2.2

include standard known unwritten isolated law shared targets in
theorem Refines.settled_run {schedule : List (Fin 2)} (refines : ∀ h, m.Refines Rep f t h)
    (settled : ∀ h, (m.engine h).Settled (t h)) (done : m.run vm cfg schedule = some m') :
    (∀ h, m'.Refines Rep f t h) ∧ ∀ h, (m'.engine h).Settled (t h) := by
  induction schedule generalizing m with
  | nil =>
      cases done
      exact ⟨refines, settled⟩
  | cons first rest ih =>
      obtain ⟨m₁, stepped, done⟩ := Option.bind_eq_some_iff.mp done
      refine ih (Refines.coreCycle standard known unwritten isolated refines law shared targets stepped) ?_ done
      obtain ⟨e, cycled, rfl⟩ := Option.map_eq_some_iff.mp stepped
      have after := Refines.settled_cycle standard known unwritten isolated law targets refines (settled first) cycled
      intro h
      by_cases same : h = first
      · subst same
        refine after.keep rfl ?_ (congrArg commits (engine_save_self m h e).2)
        simp [engine, save, CoreArch.save]
      · refine (settled h).keep (after.untested.trans (settled h).untested.symm) ?_
          (congrArg commits (engine_save_other m same e).2)
        simp [engine, save, setAt_of_ne same]

include standard isolated in
/-- On its footprint, memory with the buffered stores of a hart applied is the memory of the hart's run. -/
theorem Refines.memory (refines : ∀ h, m.Refines Rep f t h) (h : Fin 2) :
    ∃ g, Rep (m.engine h).world g ∧ ∀ byte, (t h).Footprint byte →
      (g.drained (m.core h).ooo.buffered).bytes byte = ((t h).memory f (commits (m.core h).log).length).bytes byte := by
  obtain ⟨_, _, sound, refined⟩ := refines h
  refine ⟨_, (sound.loads.memory fun entry member => (refined.followed entry member).2).1, fun byte inside => ?_⟩
  have same := (base_outside standard isolated refines h inside).1
  rw [← Trace.memory_congr same]
  exact congrFun (refined.memory (f := m.base f h)) byte

end OooDual

/-! ## The harts -/

/-- In every dual-core run of two programs that share no line of data and do not store to code, whatever the schedule, in
in-order and in out-of-order mode, each hart has retired a prefix of the computation of its program, with the registers and
the data of the computation. The in-order pipeline never fails. -/
theorem programs_isolated {δ β γ : Type} (devices : Devices δ) {program : Fin 2 → Program} (c : ∀ h, Computation (program h))
    (contained : ∀ h, (c h).Contained) (isolated : ∀ h, (c h).Isolated (c (otherHart h))) (pmem : ByteMem)
    (starts : ∀ h, ((c h).state 0).mem = pmem) (loaded : ∀ h, (program h).In pmem) (arch : Fin 2 → CoreArch)
    (atPc : ∀ h, (arch h).cpu.pc = ((c h).state 0).pc) (regs : ∀ h r, (arch h).cpu.gpr.get r = ((c h).state 0).reg r)
    (sys : Sys) (dev : δ) (schedule : List (Fin 2)) :
    (∀ (cfg : PipeConfig β) (bpred : Fin 2 → β), cfg.difftestEn = false →
      (cfg.bpred.enabled = true → ∀ state pc raw, (cfg.bpred.predict state pc raw).1.taken = true →
        (cfg.bpred.predict state pc raw).1.btbHit = true → inDram (cfg.bpred.predict state pc raw).1.target = true) →
      (∀ h n, inDram (((c h).state n).pc + 4) = true) → (∀ h, (arch h).privLevel = machineLevel) → sys.pmpOnCount = 0 →
      ∃ m, (InorderDual.init cfg arch ⟨sys, MemState.init pmem dev⟩ bpred).run (hierarchy ⟨2, prefetchHint, devices⟩) cfg
          schedule = some m ∧
        ∀ h, ∃ n k, n ≤ k ∧ k ≤ n + 1 ∧
          (retiredOf (logOf h m.log)).map IRInst.outcome =
            (List.range n).map (fun i => ((c h).inst i).outcome ((c h).state i)) ∧
          (m.engine h).written.pc = ((c h).state k).pc ∧
          (∀ r, (m.engine h).written.gpr.get r = ((c h).state k).reg r) ∧
          ∃ g, Represents ⟨2, prefetchHint, devices⟩ g m.world ∧ (c h).Finds k g.bytes) ∧
    (∀ (cfg : OooConfig γ) (bpred : Fin 2 → γ) (m : OooDual (MemState δ) γ), cfg.numCores = 2 →
      (∀ state pc raw, (cfg.bpred.predict state pc raw).1.taken = true →
        (cfg.bpred.predict state pc raw).1.btbHit = true → (cfg.bpred.predict state pc raw).1.target ≠ 0) →
      (∀ h, (c h).Nested) →
      (OooDual.init cfg arch ⟨sys, MemState.init pmem dev⟩ bpred).run (hierarchy ⟨2, prefetchHint, devices⟩) cfg
        schedule = some m →
        ∀ h, ∃ n, retirements (m.core h).log = (List.range n).map (fun i => ((c h).inst i).retired ((c h).state i)) ∧
          (m.core h).arch.cpu.pc = ((c h).state n).pc ∧
          (∀ r, (m.core h).arch.cpu.gpr.get r = ((c h).state n).reg r) ∧
          ∃ g, Represents ⟨2, prefetchHint, devices⟩ g m.world ∧
            (c h).Finds n (g.drained (m.core h).ooo.buffered).bytes) := by
  have law : CoherentMemory (hierarchy ⟨2, prefetchHint, devices⟩)
      fun w f => Represents ⟨2, prefetchHint, devices⟩ f w := hierarchy_coherent rfl
  have shared : ∀ {w : World (MemState δ)} {f} (sys : Sys), Represents ⟨2, prefetchHint, devices⟩ f w →
      Represents ⟨2, prefetchHint, devices⟩ f { w with sys := sys } := fun _ rep =>
    ⟨rep.mem, fun one => absurd one (Nat.not_succ_le_self 1)⟩
  have rep : ∀ sys, Represents ⟨2, prefetchHint, devices⟩ ⟨pmem, ∅⟩ ⟨sys, MemState.init pmem dev⟩ := fun _ =>
    ⟨init_represents _ pmem dev, fun one => absurd one (Nat.not_succ_le_self 1)⟩
  have traces : ∀ h, ∃ t : Trace (hierarchy ⟨2, prefetchHint, devices⟩),
      t.state 0 = (arch h).alone h ⟨sys, MemState.init pmem dev⟩ ∧
      t.Computes (fun w f => Represents ⟨2, prefetchHint, devices⟩ f w) (c h) := by
    intro h
    have models : ((arch h).alone h ⟨sys, MemState.init pmem dev⟩).Models
        (fun w f => Represents ⟨2, prefetchHint, devices⟩ f w) (program h) ((c h).state 0) := by
      refine ⟨atPc h, regs h, ?_, ∅, ?_, fun _ _ _ _ => Set.notMem_empty _⟩
      · rw [starts h]
        exact loaded h
      · rw [starts h]
        exact rep _
    obtain ⟨t, _, start, computes⟩ := (contained h).trace law models fun _ => .zero
    exact ⟨t, start, computes⟩
  choose t start computes using traces
  have apart : ∀ h, (t h).Isolated (t (otherHart h)) := fun h => (computes h).isolated (computes (otherHart h)) (isolated h)
  have rep₀ : ∀ h, Represents ⟨2, prefetchHint, devices⟩ ⟨pmem, ∅⟩ ((t h).state 0).world := by
    intro h
    rw [start]
    exact rep _
  constructor
  · intro cfg bpred off targets within machine unprotected
    have regular : ∀ h, (t h).Regular := fun h =>
      (computes h).regular (contained h) (within h) (by rw [start]; exact machine h) (by rw [start]; exact unprotected)
    have determined : ∀ h n, (t h).Determined ⟨pmem, ∅⟩ n := fun h => (regular h).determined law rfl (rep₀ h)
    have harts : ∀ h n, ((t h).state n).world.sys.hartid = h := by
      intro h n
      rw [(regular h).contained.hart law rfl (rep₀ h), start]
      rfl
    have init : (InorderDual.init cfg arch ⟨sys, MemState.init pmem dev⟩ bpred).Mirrors cfg
        (fun w f => Represents ⟨2, prefetchHint, devices⟩ f w) t ⟨pmem, ∅⟩ fun _ => 0 := by
      refine InorderDual.init_mirrors bpred (fun h => ?_) (rep _) rfl shared
      unfold Trace.arch
      rw [start]
      rfl
    obtain ⟨m, k, done, mirrors⟩ := init.run off (hierarchy_tame _) law shared targets regular determined harts apart schedule
    refine ⟨m, done, fun h => ?_⟩
    obtain ⟨n, low, high, retired⟩ := (mirrors h).prefixes
    have cpuAt : (m.engine h).written = ((t h).state (k h)).cpu := (mirrors h).follows.flow.cpu.symm
    obtain ⟨g, after, sees, _⟩ := (mirrors h).follows.memory
    refine ⟨n, k h, low, high, ?_, ?_, ?_, g, ⟨after.mem, fun one => absurd one (Nat.not_succ_le_self 1)⟩, ?_⟩
    · rw [retired]
      exact List.map_congr_left fun i _ => ((computes h).realizes i).outcome
    · rw [cpuAt]
      exact ((computes h).models (k h)).pc
    · rw [cpuAt]
      exact ((computes h).models (k h)).regs
    · exact (computes h).finds (starts h).symm sees.bytes
  · intro cfg bpred m two targets nested done h
    have standard : ∀ h, (t h).Standard := fun h => (computes h).standard (contained h) (nested h)
    have known : ∀ h n, (t h).Known ⟨pmem, ∅⟩ n := fun h n =>
      (standard h).contained.known law rfl (rep₀ h) ((standard h).plain n)
    have cpus : ∀ h, ((t h).state 0).cpu = (arch h).cpu := fun h => by
      rw [start]
      rfl
    have init : ∀ h, (OooDual.init cfg arch ⟨sys, MemState.init pmem dev⟩ bpred).Refines
        (fun w f => Represents ⟨2, prefetchHint, devices⟩ f w) ⟨pmem, ∅⟩ t h :=
      OooDual.init_refines bpred cpus (fun h => (standard h).contained.mapped 0) (rep sys) shared
    have settled : ∀ h, ((OooDual.init cfg arch ⟨sys, MemState.init pmem dev⟩ bpred).engine h).Settled (t h) := fun h =>
      ⟨by simp [OooDual.engine, OooDual.init, two], (cpus h).symm⟩
    obtain ⟨refines, settles⟩ :=
      OooDual.Refines.settled_run standard known rfl apart law shared targets init settled done
    obtain ⟨g, after, agrees⟩ := OooDual.Refines.memory standard apart refines h
    have cpuAt : (m.core h).arch.cpu = ((t h).state (commits (m.core h).log).length).cpu := (settles h).cpu
    refine ⟨_, ?_, ?_, ?_, g, ⟨after.mem, fun one => absurd one (Nat.not_succ_le_self 1)⟩,
      (computes h).finds (starts h).symm agrees⟩
    · have retired : retirements (m.core h).log = _ := (refines h).refines.retired
      rw [retired]
      exact List.map_congr_left fun i _ => ((computes h).realizes i).retired
    · rw [cpuAt]
      exact ((computes h).models _).pc
    · rw [cpuAt]
      exact ((computes h).models _).regs

/-- Each hart counts in its own word. -/
theorem programs_isolated_counting : ∃ c : Fin 2 → Computation (.ofList mbase counting),
    (∀ h, (c h).state 0 = countingAt (countingWord h)) ∧
    (∃ m, countingPair = some m ∧ ∀ h, 4 ≤ (retiredOf (logOf h m.log)).length ∧ ∃ n k, n ≤ k ∧ k ≤ n + 1 ∧
      (retiredOf (logOf h m.log)).map IRInst.outcome =
        (List.range n).map (fun i => ((c h).inst i).outcome ((c h).state i)) ∧
      (m.engine h).written.pc = ((c h).state k).pc ∧
      (∀ r, (m.engine h).written.gpr.get r = ((c h).state k).reg r) ∧
      ∃ g, Represents (.plain 2) g m.world ∧ (c h).Finds k g.bytes) ∧
    ∃ m, countingDuo = some m ∧ ∀ h, 5 ≤ (retirements (m.core h).log).length ∧ ∃ n,
      retirements (m.core h).log = (List.range n).map (fun i => ((c h).inst i).retired ((c h).state i)) ∧
      (m.core h).arch.cpu.pc = ((c h).state n).pc ∧
      (∀ r, (m.core h).arch.cpu.gpr.get r = ((c h).state n).reg r) ∧
      ∃ g, Represents (.plain 2) g m.world ∧ (c h).Finds n (g.drained (m.core h).ooo.buffered).bytes := by
  have computations := fun h => countingAt_computation (countingWord_behind h)
  choose c start counts using computations
  have isolated : ∀ h, (c h).Isolated (c (otherHart h)) := fun h =>
    CountsBy.isolated (counts h) (counts (otherHart h)) (countingWord_apart h)
  have regs : ∀ h r, (countingArch h).cpu.gpr.get r = ((c h).state 0).reg r := by
    intro h
    rw [start]
    exact countingAt_regs (countingWord h)
  have runs := programs_isolated (β := Unit) (γ := Unit) Devices.none c (fun h n => (counts h n).contained) isolated
    (image (counting.map Instr.encode)) (fun h => congrArg State.mem (start h)) (fun _ => image_holds (by decide)) countingArch
    (fun h => (congrArg State.pc (start h)).symm) regs Sys.init () countingSchedule
  obtain ⟨m, done, computed⟩ :=
    runs.1 .plain (fun _ => ()) rfl (by rintro ⟨⟩) (fun h n => (counts h n).within) (fun _ => rfl) rfl
  have paired : countingPair = some m := done
  have turns := countingPair_counts
  rw [paired, Option.any_some, decide_eq_true_eq] at turns
  obtain ⟨m', done', turns'⟩ := (Option.any_eq_true _ _).mp countingDuo_counts
  have computed' := runs.2 .duo (fun _ => ()) m' rfl (fun _ _ _ taken => nomatch taken) (fun h => CountsBy.nested (counts h))
    done'
  exact ⟨c, start, ⟨m, paired, fun h => ⟨turns h, computed h⟩⟩,
    m', done', fun h => ⟨of_decide_eq_true turns' h, computed' h⟩⟩

end Sustemu
