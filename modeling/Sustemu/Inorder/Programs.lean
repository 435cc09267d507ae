import Sustemu.Inorder.Refinement
import Sustemu.Cpu.Programs

/-!
# The pipeline runs RV64I programs

After any number of cycles the pipeline has retired a prefix of the computation
of the program. The instruction in the write-back latch has left the memory
stage, so registers and memory are those of the computation one instruction
further on if the latch is full.
-/

set_option autoImplicit false

namespace Sustemu

open Lib Lib.Rv64i

/-- Where an instruction was, the register it wrote and where it went. -/
def Lib.Rv64i.Instr.outcome (i : Instr) (s : State) : Word × Option (Reg × Word) × Word := (s.pc, i.result s, i.next s)

theorem IRInst.Realizes.outcome {ir : IRInst} {i : Instr} {s : State} (realizes : ir.Realizes i s) :
    ir.outcome = i.outcome s := by
  unfold IRInst.outcome Instr.outcome
  rw [realizes.pc, realizes.result, realizes.next]

/-- A memory in the state of the computation serves it. -/
theorem serves_computes {σ τ : Type} {vm : VMem σ} {vm' : VMem τ} {Rep : World σ → Flat → Prop}
    {Rep' : World τ → Flat → Prop} {program : Program} {c : Computation program} {t : Trace vm}
    (law : CoherentMemory vm' Rep') (computes : t.Computes Rep c) (contained : c.Contained)
    (loaded : ∀ n, (t.inst n).itype = .load → (t.inst n).result = extend (t.inst n).memSign (t.inst n).memWidth
      (loadLE (c.state n).mem (t.inst n).memAddr.toNat (t.inst n).memWidth)) :
    Serves vm' t fun n w => w.Holds Rep' program (c.state n) where
  load := by
    rintro n w ⟨written, rep, fresh⟩ load
    obtain ⟨cached, inside⟩ := (contained n).access (computes.realizes n).toEffect (.inl load)
    obtain ⟨level, raw, w', read, _, after, value⟩ := law.readLevel (t.inst n).memWidth rep cached
    refine ⟨level, raw, w', read, ?_, written, ?_, fresh⟩
    · rw [value inside, loaded n load]
    · rw [c.step, Instr.mem_exec]
      · exact after
      · rw [← (computes.realizes n).stores, if_neg (by rw [load]; rintro ⟨⟩)]
  store := by
    rintro n w ⟨written, rep, fresh⟩ store
    obtain ⟨cached, inside⟩ := (contained n).access (computes.realizes n).toEffect (.inr store)
    obtain ⟨w', wrote, _, after⟩ := law.write (t.inst n).src2Val rep cached inside
    obtain ⟨written', performed, fresh'⟩ := unwritten_after (computes.realizes n).toEffect (contained n).spares fresh
    refine ⟨w', wrote, written', ?_, fresh'⟩
    rw [c.step, ← performed, show (t.inst n).write = some _ from if_pos store]
    exact after
  pass := by
    rintro n w ⟨written, rep, fresh⟩ _ notStore
    refine ⟨written, ?_, fresh⟩
    rw [c.step, Instr.mem_exec]
    · exact rep
    · rw [← (computes.realizes n).stores, if_neg notStore]
  fetch := by
    rintro n w pc ⟨written, rep, fresh⟩ mapped
    obtain ⟨word, w', read, _, after, same⟩ := law.ifetch 4 rep mapped
    refine ⟨word, w', read, ⟨written, after, fresh⟩, ?_⟩
    rintro i _ rfl
    have here := c.fetched i
    rw [computes.pc i] at same
    rw [same (.of_aligned (contained i).aligned) fun byte low high =>
      fresh (c.state i).pc (by rw [here]; rfl) byte ⟨low, high⟩, (computes.models n).code _ _ here,
      (computes.realizes i).raw, BitVec.setWidth_setWidth_of_le _ (by decide), BitVec.setWidth_eq]
  sys := by
    rintro n w sys ⟨written, rep, fresh⟩ hart
    exact ⟨written, law.sys sys rep hart, fresh⟩

/-- From reset over a memory that holds the program, in machine mode with PMP off, whatever hit levels the caches report,
the pipeline never fails and has retired a prefix of the computation. -/
theorem pipeline_computes {β δ : Type} (devices : Devices δ) (cfg : PipeConfig β) (off : cfg.difftestEn = false)
    (targets : cfg.bpred.enabled = true → ∀ state pc raw, (cfg.bpred.predict state pc raw).1.taken = true →
      (cfg.bpred.predict state pc raw).1.btbHit = true → inDram (cfg.bpred.predict state pc raw).1.target = true)
    (pattern : World (MemState δ) → Word → Nat → Fin 3 → Fin 3) (slots : Fin 4 → PipeReg) {program : Program}
    (c : Computation program) (contained : c.Contained) (within : ∀ n, inDram ((c.state n).pc + 4) = true)
    (loaded : program.In (c.state 0).mem) (cpu : CPUState) (atPc : cpu.pc = (c.state 0).pc)
    (regs : ∀ r, cpu.gpr.get r = (c.state 0).reg r) (sys : Sys) (hart : sys.hartid = 0)
    (machine : sys.privLevel = machineLevel) (unprotected : sys.pmpOnCount = 0) (dev : δ) (bpred : β) (diffCpu : CPUState)
    (diffInit : Bool) (k : Nat) :
    ∃ e, Inorder.run ((hierarchy ⟨1, prefetchHint, devices⟩).withLevels pattern) cfg k
        (Inorder.init cfg slots cpu ⟨sys, MemState.init (c.state 0).mem dev⟩ bpred diffCpu diffInit) = some e ∧
      ∃ n m, n ≤ m ∧ m ≤ n + 1 ∧
        (retiredOf e.log).map IRInst.outcome = (List.range n).map (fun i => (c.inst i).outcome (c.state i)) ∧
        e.written.pc = (c.state m).pc ∧ (∀ r, e.written.gpr.get r = (c.state m).reg r) ∧
        ∃ written, Represents ⟨1, prefetchHint, devices⟩ ⟨(c.state m).mem, written⟩ e.world := by
  have law : CoherentMemory (hierarchy ⟨1, prefetchHint, devices⟩)
      fun w f => Represents ⟨1, prefetchHint, devices⟩ f w := hierarchy_coherent rfl
  have rep : Represents ⟨1, prefetchHint, devices⟩ ⟨(c.state 0).mem, ∅⟩ ⟨sys, MemState.init (c.state 0).mem dev⟩ :=
    ⟨init_represents _ _ dev, fun _ => hart⟩
  have holds : (⟨sys, MemState.init (c.state 0).mem dev⟩ : World (MemState δ)).Holds
      (fun w f => Represents ⟨1, prefetchHint, devices⟩ f w) program (c.state 0) :=
    ⟨∅, rep, fun _ _ _ _ => Set.notMem_empty _⟩
  obtain ⟨t, _, start, computes⟩ := contained.trace law (m := ⟨cpu, ⟨sys, MemState.init (c.state 0).mem dev⟩⟩)
    ⟨atPc, regs, loaded, holds⟩ fun _ => .zero
  have rep₀ : Represents ⟨1, prefetchHint, devices⟩ ⟨(c.state 0).mem, ∅⟩ (t.state 0).world := by
    rw [start]
    exact rep
  have regular := computes.regular contained within (by rw [start]; exact machine) (by rw [start]; exact unprotected)
  have determined := regular.determined law rfl rep₀
  have harts : ∀ n, (t.state n).world.sys.hartid = 0 := by
    intro n
    rw [regular.contained.hart law rfl rep₀, start]
    exact hart
  have serves := serves_computes (withLevels_coherent law pattern) computes contained fun n load => by
    rw [(determined n).load load, computes.memory rfl]
  have init := Inorder.init_mirrors (t := t) (M := fun n w => w.Holds
    (fun w f => Represents ⟨1, prefetchHint, devices⟩ f w) program (c.state n)) cfg slots bpred diffCpu diffInit
    (by unfold Trace.arch; rw [start]) hart holds
  obtain ⟨e, m, done, mirrors⟩ := Inorder.Mirrors.run
    (e := .init cfg slots cpu ⟨sys, MemState.init (c.state 0).mem dev⟩ bpred diffCpu diffInit) determined harts serves
    (withLevels_tame (hierarchy_tame _) pattern) regular targets init off k
  obtain ⟨n, low, high, retired⟩ := mirrors.prefixes
  have cpuAt : e.written = (t.state m).cpu := mirrors.follows.flow.cpu.symm
  obtain ⟨written, after, _⟩ := mirrors.follows.memory
  refine ⟨e, done, n, m, low, high, ?_, ?_, ?_, written, after⟩
  · rw [retired]
    exact List.map_congr_left fun i _ => (computes.realizes i).outcome
  · rw [cpuAt]
    exact (computes.models m).pc
  · rw [cpuAt]
    exact (computes.models m).regs

/-- Every access of the counting loop is reported as a miss of both caches. -/
theorem pipeline_computes_counting : ∃ (c : Computation (.ofList mbase counting)) (e : Inorder (MemState Unit) Unit),
    c.state 0 = countingStart ∧ Inorder.run ((hierarchy (.plain 1)).withLevels fun _ _ _ _ => 2) .plain 500
      (Inorder.init .plain (fun _ => .zero) ⟨.empty, mbase⟩ ⟨Sys.init, MemState.init (c.state 0).mem ()⟩ () ⟨.empty, 0⟩
        false) = some e ∧
      ∃ n m, n ≤ m ∧ m ≤ n + 1 ∧
        (retiredOf e.log).map IRInst.outcome = (List.range n).map (fun i => (c.inst i).outcome (c.state i)) ∧
        e.written.pc = (c.state m).pc ∧ (∀ r, e.written.gpr.get r = (c.state m).reg r) ∧
        ∃ written, Represents (.plain 1) ⟨(c.state m).mem, written⟩ e.world := by
  obtain ⟨c, start, counts⟩ := counting_computation
  obtain ⟨e, runs⟩ := pipeline_computes Devices.none .plain rfl (by rintro ⟨⟩) (fun _ _ _ _ => 2) (fun _ => .zero) c
    (fun n => (counts n).contained) (fun n => (counts n).within) (start ▸ counting_holds) ⟨.empty, mbase⟩
    (by rw [start]; rfl) (start ▸ countingStart_regs) Sys.init rfl rfl rfl () () ⟨.empty, 0⟩ false 500
  exact ⟨c, e, start, runs⟩

end Sustemu
