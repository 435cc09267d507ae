import Sustemu.Cpu.Sequential
import Sustemu.Cpu.Trace

/-!
# Program order determines the functional run

An instruction that a hart performs in the state a functional run is in has the
outcome it has in the functional run, up to the value a load reads. Besides the
plain instructions this holds for fences, traps, and accesses to the CSRs that
`read_csr` and `set_csr` both handle, except counters and PMP registers.
-/

set_option autoImplicit false

namespace Sustemu

open Lib

/-- The CSRs that both `read_csr` and `set_csr` handle, without the PMP registers. -/
def handledCsrs : List Nat :=
  [0x341, 0x342, 0x305, 0xf14, 0x343, 0x344, 0x304, 0x303, 0x302, 0x340, 0x100, 0x104, 0x105, 0x140, 0x143, 0x144]

/-- A valid instruction that is neither `mret` nor an access to a CSR outside `handledCsrs`. -/
def IRInst.Permitted (ir : IRInst) : Prop :=
  match ir.execFn with
  | .inv | .mret => False
  | .csrrw | .csrrs | .csrrc => csrNo ir ∈ handledCsrs
  | _ => True

instance (ir : IRInst) : Decidable ir.Permitted := by
  unfold IRInst.Permitted
  split <;> infer_instance

/-- The parts of an executed instruction that the rest of the machine looks at. The result of a load is left out:
it is only known after the access. -/
structure IRInst.Similar (ir ir' : IRInst) : Prop where
  pc : ir'.pc = ir.pc
  raw : ir'.raw = ir.raw
  itype : ir'.itype = ir.itype
  rd : ir'.rd = ir.rd
  dnpc : ir'.dnpc = ir.dnpc
  access : ir.itype = .load ∨ ir.itype = .store →
    ir'.memAddr = ir.memAddr ∧ ir'.memWidth = ir.memWidth ∧ (ir.itype = .load → ir'.memSign = ir.memSign)
  data : ir.itype = .store → ir'.src2Val = ir.src2Val
  result : ir.itype ≠ .load → ir.rd ≠ none → ir'.result = ir.result

theorem IRInst.Similar.trans {ir ir' ir'' : IRInst} (first : ir.Similar ir') (second : ir'.Similar ir'') :
    ir.Similar ir'' where
  pc := second.pc.trans first.pc
  raw := second.raw.trans first.raw
  itype := second.itype.trans first.itype
  rd := second.rd.trans first.rd
  dnpc := second.dnpc.trans first.dnpc
  access := by
    intro access
    obtain ⟨addr, width, sign⟩ := first.access access
    obtain ⟨addr', width', sign'⟩ := second.access (by rw [first.itype]; exact access)
    exact ⟨addr'.trans addr, width'.trans width, fun load => (sign' (first.itype.trans load)).trans (sign load)⟩
  data := fun store => (second.data (first.itype.trans store)).trans (first.data store)
  result := fun other writes => (second.result (by rw [first.itype]; exact other) (by rw [first.rd]; exact writes)).trans
    (first.result other writes)

/-- The value a load has read does not matter. -/
theorem IRInst.Similar.loaded (ir : IRInst) (mem : ByteMem) : (ir.loaded mem).Similar ir := by
  unfold IRInst.loaded
  split
  · next load =>
      exact ⟨rfl, rfl, rfl, rfl, rfl, fun _ => ⟨rfl, rfl, fun _ => rfl⟩, fun _ => rfl, fun other => absurd load other⟩
  · exact ⟨rfl, rfl, rfl, rfl, rfl, fun _ => ⟨rfl, rfl, fun _ => rfl⟩, fun _ => rfl, fun _ _ => rfl⟩

theorem IRInst.Similar.withLoad (ir : IRInst) (value : Word) : ir.Similar (ir.withLoad value) := by
  unfold IRInst.withLoad
  split
  · next load =>
      exact ⟨rfl, rfl, rfl, rfl, rfl, fun _ => ⟨rfl, rfl, fun _ => rfl⟩, fun _ => rfl, fun other => absurd load other⟩
  · exact ⟨rfl, rfl, rfl, rfl, rfl, fun _ => ⟨rfl, rfl, fun _ => rfl⟩, fun _ => rfl, fun _ _ => rfl⟩

theorem IRInst.Similar.writeback {ir ir' : IRInst} (similar : ir.Similar ir')
    (load : ir.itype = .load → ir'.result = ir.result) (gpr : RegFile) : irWriteback ir' gpr = irWriteback ir gpr := by
  unfold irWriteback
  rw [similar.rd]
  cases rd : ir.rd with
  | none => rfl
  | some target =>
      by_cases isLoad : ir.itype = .load
      · rw [load isLoad]
      · rw [similar.result isLoad (by rw [rd]; exact nofun)]

/-! ## CSR accesses -/

section Csr

variable {sys sys' : Sys}

/-- A handled CSR reads the same in both states and reading it has no effect. -/
theorem readCsr_handled {no : Nat} (handled : no ∈ handledCsrs) (machine : sys.privLevel = machineLevel)
    (same : sys.SameArch sys') (perf perf' : Perf) :
    ∃ value, readCsr perf sys no = some (value, sys) ∧ readCsr perf' sys' no = some (value, sys') := by
  simp only [handledCsrs, List.mem_cons, List.not_mem_nil, or_false] at handled
  rcases handled with rfl | rfl | rfl | rfl | rfl | rfl | rfl | rfl | rfl | rfl | rfl | rfl | rfl | rfl | rfl | rfl
  all_goals
    simp [readCsr, privCheck, csrTable, machine, machineLevel, supervisorLevel, same.privLevel, same.csr, same.hart]

theorem setCsr_handled {no : Nat} (handled : no ∈ handledCsrs) (machine : sys.privLevel = machineLevel)
    (same : sys.SameArch sys') (data : Word) : (setCsr sys no data).SameArch (setCsr sys' no data) := by
  have csr := same.csr
  obtain ⟨cfg, addr⟩ := same.pmp
  simp only [handledCsrs, List.mem_cons, List.not_mem_nil, or_false] at handled
  rcases handled with rfl | rfl | rfl | rfl | rfl | rfl | rfl | rfl | rfl | rfl | rfl | rfl | rfl | rfl | rfl | rfl
  all_goals
    refine ⟨fun cpu => ?_, ?_⟩
    · simp [setCsr, privCheck, csrTable, same.privLevel, machine, machineLevel, supervisorLevel, CoreArch.save, csr, cfg, addr,
        Sys.abort]
    · rw [setCsr_hartid, setCsr_hartid, same.hart]

end Csr

/-! ## One instruction in two records -/

theorem IRInst.Awaits.fetched {ir : IRInst} {cpu : CPUState} (awaits : ir.Awaits cpu) :
    ir.Fetched ∧ ir.ReadsFrom cpu.gpr := by
  have fetched := (irDecode_fetched cpu.gpr ir.raw ir.pc ir).1
  have reads := irDecode_reads cpu.gpr ir.raw ir.pc ir
  rw [awaits.decoded] at fetched reads
  exact ⟨fetched, reads⟩

/-- An executor's instruction word gives both its operands where they are a register and an immediate. -/
theorem irSelect_csr {raw : Raw} (csr : (irSelect raw).2.1.itype = .csr) : (irSelect raw).1 = .I := by
  have table : ∀ selected ∈ selections, selected.2.1.itype = .csr → selected.1 = .I := by decide +kernel
  exact table _ (irSelect_mem raw) csr

section Similar

variable {d d' x : IRInst} {cpu : CPUState} {sys sys' s : Sys} {perf : Perf} (awaits : d.Awaits cpu)
  (awaits' : d'.Awaits cpu) (raw : d'.raw = d.raw)

include awaits awaits' raw

theorem awaits_execFn : d'.execFn = d.execFn := by
  rw [awaits.fetched.1.decoded.fn, awaits'.fetched.1.decoded.fn, raw]

omit raw in
theorem awaits_snpc : d'.snpc = d.snpc := by
  rw [awaits.fetched.1.decoded.snpc, awaits'.fetched.1.decoded.snpc, awaits.pc, awaits'.pc]

theorem awaits_rd : d'.rd = d.rd := by
  rw [awaits.fetched.1.rd, awaits'.fetched.1.rd, raw]

/-- The operands of a CSR instruction. -/
theorem awaits_csr (csr : d.execFn.itype = .csr) : d'.src1Val = d.src1Val ∧ d'.src2Val = d.src2Val := by
  rw [awaits.fetched.1.decoded.fn] at csr
  have format := irSelect_csr csr
  have register : rs1Of d.raw = some (regField d.raw 15) := by
    unfold rs1Of
    rw [format]
  have immediate : src2Of d.raw = some (immI d.raw) := by
    unfold src2Of
    rw [format]
  constructor
  · rw [awaits.fetched.2.src1 _ register, awaits'.fetched.2.src1 _ (by rw [raw]; exact register)]
  · rw [awaits.fetched.1.decoded.src2 _ immediate, awaits'.fetched.1.decoded.src2 _ (by rw [raw]; exact immediate)]

/-- Plain instructions and fences. -/
theorem pure_similar {run : IRInst → IRInst} (executor : d.execFn.pure = some run)
    (kind : d.execFn.itype.Plain = true ∨ d.execFn = .fence) : (run d).Similar (run d') := by
  rcases kind with plain | fence
  · obtain ⟨fetched, reads⟩ := awaits.fetched
    obtain ⟨fetched', reads'⟩ := awaits'.fetched
    have pc : d'.pc = d.pc := awaits'.pc.trans awaits.pc.symm
    have outcome := fetched.decoded.sameOutcome fetched'.decoded pc raw reads reads' executor plain
    have executor' : d'.execFn.pure = some run := by
      rw [awaits_execFn awaits awaits' raw]
      exact executor
    obtain ⟨same, _, src2⟩ := pure_sameInst d executor
    obtain ⟨same', _, src2'⟩ := pure_sameInst d' executor'
    obtain ⟨rd, _⟩ := pure_rd executor plain d
    obtain ⟨rd', _⟩ := pure_rd executor plain d'
    have kind := pure_itype executor d
    constructor
    · rw [same'.pc, same.pc, pc]
    · rw [same'.raw, same.raw, raw]
    · exact outcome.itype
    · rw [rd', rd]
      exact awaits_rd awaits awaits' raw
    · exact outcome.dnpc
    · exact outcome.access
    · intro store
      rw [src2, src2']
      have format := irSelect_store (by rw [← fetched.decoded.fn, ← kind]; exact store)
      have register : rs2Of d.raw = some (regField d.raw 20) := by
        unfold rs2Of
        rw [format]
      rw [reads.src2 _ register, reads'.src2 _ (by rw [raw]; exact register)]
    · intro other writes
      have dest : ¬(d.execFn.itype = .store ∨ d.execFn.itype = .branch) := by
        rw [fetched.decoded.fn]
        intro without
        apply writes
        rw [rd, fetched.rd, rdOf_eq_none without]
      rw [kind] at other
      exact outcome.result (by rw [kind]; exact other) (by rw [kind]; exact fun store => dest (.inl store))
        (by rw [kind]; exact fun branch => dest (.inr branch))
  · rw [fence] at executor
    cases executor
    refine ⟨awaits'.pc.trans awaits.pc.symm, raw, rfl, rfl, awaits_snpc awaits awaits', ?_, nofun, fun _ absent => absurd rfl absent⟩
    exact fun access => by rcases access with load | store <;> contradiction

omit awaits awaits' raw in
/-- An instruction that accesses no memory. -/
theorem IRInst.Similar.of_control {y y' : IRInst} (notLoad : y.itype ≠ .load) (notStore : y.itype ≠ .store) (pc : y'.pc = y.pc)
    (raw : y'.raw = y.raw) (itype : y'.itype = y.itype) (rd : y'.rd = y.rd) (dnpc : y'.dnpc = y.dnpc)
    (result : y.rd ≠ none → y'.result = y.result) : y.Similar y' :=
  ⟨pc, raw, itype, rd, dnpc, fun access => (access.elim notLoad notStore).elim, fun store => absurd store notStore,
    fun _ => result⟩

/-- `csrrw` on a handled CSR. -/
theorem csrrw_similar (csr : d.execFn.itype = .csr) (handled : csrNo d ∈ handledCsrs)
    (machine : sys.privLevel = machineLevel) (same : sys.SameArch sys') (perf' : Perf)
    (run : irExecCsrrw perf d sys = some (x, s)) :
    ∃ x' s', irExecCsrrw perf' d' sys' = some (x', s') ∧ x.Similar x' ∧ s.SameArch s' := by
  obtain ⟨src1, src2⟩ := awaits_csr awaits awaits' raw csr
  have number : csrNo d' = csrNo d := by
    unfold csrNo
    rw [src2]
  have nonzero : d.src2Val ≠ 0 := by
    intro zero
    unfold csrNo at handled
    rw [zero] at handled
    exact absurd handled (by decide)
  have pc : d'.pc = d.pc := awaits'.pc.trans awaits.pc.symm
  have rd := awaits_rd awaits awaits' raw
  have snpc := awaits_snpc awaits awaits'
  obtain ⟨value, read, read'⟩ := readCsr_handled handled machine same perf perf'
  unfold irExecCsrrw at run ⊢
  rw [if_pos nonzero, read] at run
  rw [src2, if_pos nonzero, number, read', src1]
  cases run
  refine ⟨_, _, rfl, ?_, setCsr_handled handled machine same _⟩
  exact .of_control nofun nofun pc raw rfl rd snpc fun _ => rfl

/-- `csrrs` and `csrrc` on a handled CSR. -/
theorem csrrm_similar (combine : Word → Word → Word) (csr : d.execFn.itype = .csr) (handled : csrNo d ∈ handledCsrs)
    (machine : sys.privLevel = machineLevel) (same : sys.SameArch sys') (perf' : Perf)
    (run : irExecCsrrm combine perf d sys = some (x, s)) :
    ∃ x' s', irExecCsrrm combine perf' d' sys' = some (x', s') ∧ x.Similar x' ∧ s.SameArch s' := by
  obtain ⟨src1, src2⟩ := awaits_csr awaits awaits' raw csr
  have number : csrNo d' = csrNo d := by
    unfold csrNo
    rw [src2]
  have pc : d'.pc = d.pc := awaits'.pc.trans awaits.pc.symm
  have rd := awaits_rd awaits awaits' raw
  have snpc := awaits_snpc awaits awaits'
  obtain ⟨value, read, read'⟩ := readCsr_handled handled machine same perf perf'
  unfold irExecCsrrm at run ⊢
  rw [read] at run
  rw [number, read', src1]
  cases run
  refine ⟨_, _, rfl, ?_, ?_⟩
  · exact .of_control nofun nofun pc raw rfl rd snpc fun _ => rfl
  · split
    · exact setCsr_handled handled machine same _
    · exact same

/-- A trap. -/
theorem ecall_similar (same : sys.SameArch sys') : (irExecEcall d sys).1.Similar (irExecEcall d' sys').1 ∧
    (irExecEcall d sys).2.SameArch (irExecEcall d' sys').2 := by
  have csr := same.csr
  obtain ⟨cfg, addr⟩ := same.pmp
  have pc : d'.pc = d.pc := awaits'.pc.trans awaits.pc.symm
  refine ⟨.of_control nofun nofun pc raw rfl rfl (congrArg CSR.mtvec csr) fun absent => absurd rfl absent,
    fun cpu => ?_, same.hart⟩
  simp only [irExecEcall, raiseIntr, exceptionPrivTransfer, CoreArch.save, csr, cfg, addr, pc, same.privLevel]

/-- A permitted instruction has the same outcome in both records, and the same effect on the system registers. -/
theorem irExecute_similar (permitted : d.Permitted) (machine : sys.privLevel = machineLevel) (same : sys.SameArch sys')
    (perf' : Perf) (run : irExecute perf d sys = some (x, s)) :
    ∃ x' s', irExecute perf' d' sys' = some (x', s') ∧ x.Similar x' ∧ s.SameArch s' := by
  unfold IRInst.Permitted at permitted
  unfold irExecute at run ⊢
  rw [awaits_execFn awaits awaits' raw]
  cases executor : d.execFn.pure with
  | some step =>
      rw [executor] at run
      cases run
      refine ⟨_, _, rfl, ?_, same⟩
      apply pure_similar awaits awaits' raw executor
      cases kind : d.execFn <;> rw [kind] at executor permitted <;>
        first | exact .inl rfl | exact .inr rfl | exact permitted.elim | cases executor
  | none =>
      rw [executor] at run
      cases kind : d.execFn <;> rw [kind] at executor permitted run <;> try cases executor
      case none.csrrw.refl => exact csrrw_similar awaits awaits' raw (by rw [kind]; rfl) permitted machine same perf' run
      case none.csrrs.refl => exact csrrm_similar awaits awaits' raw _ (by rw [kind]; rfl) permitted machine same perf' run
      case none.csrrc.refl => exact csrrm_similar awaits awaits' raw _ (by rw [kind]; rfl) permitted machine same perf' run
      case none.ecall.refl =>
        cases run
        exact ⟨_, _, rfl, ecall_similar awaits awaits' raw same⟩
      case none.mret.refl => exact permitted.elim
      case none.ebreak.refl =>
        cases run
        have snpc := awaits_snpc awaits awaits'
        refine ⟨_, _, rfl, ?_, same.arch, same.hart⟩
        exact .of_control nofun nofun (awaits'.pc.trans awaits.pc.symm) raw rfl rfl snpc fun absent => absurd rfl absent

end Similar

/-! ## Functional runs -/

namespace Trace

variable {σ : Type} {vm : VMem σ} {Rep : World σ → Flat → Prop} {f : Flat} (t : Trace vm)

/-- The registers of the hart before instruction `n`. -/
def arch (n : Nat) : CoreArch := .save (t.state n).cpu (t.state n).world.sys

/-- The run stays in machine mode with PMP off and executes permitted instructions with defined quotients. -/
structure Regular : Prop where
  contained : t.Contained
  next : ∀ n, inDram (t.pc n + 4) = true
  machine : ∀ n, (t.state n).world.sys.privLevel = machineLevel
  unprotected : ∀ n, (t.state n).world.sys.pmpOnCount = 0
  permitted : ∀ n, (t.inst n).Permitted
  divisions : ∀ n, (t.inst n).divDefined = true

/-- What the other engines need to know of instruction `n`. -/
structure Determined (f : Flat) (n : Nat) : Prop where
  pc : (t.inst n).pc = t.pc n
  raw : (t.inst n).raw = (loadLE f.bytes (t.pc n).toNat 4).setWidth 32
  cpu : (t.state (n + 1)).cpu = ⟨irWriteback (t.inst n) (t.state n).cpu.gpr, (t.inst n).dnpc⟩
  load : (t.inst n).itype = .load → (t.inst n).result = extend (t.inst n).memSign (t.inst n).memWidth
    (loadLE (t.memory f n).bytes (t.inst n).memAddr.toNat (t.inst n).memWidth)
  executed : ∀ {d : IRInst} {sys : Sys}, d.Awaits (t.state n).cpu → d.raw = (t.inst n).raw →
    (t.state n).world.sys.SameArch sys → ∀ perf, ∃ x s, irExecute perf d sys = some (x, s) ∧ (t.inst n).Similar x ∧
      (t.state (n + 1)).world.sys.SameArch s

variable {t}

theorem Regular.determined (regular : t.Regular) (law : CoherentMemory vm Rep) (unwritten : f.written = ∅)
    (rep : Rep (t.state 0).world f) (n : Nat) : t.Determined f n := by
  obtain ⟨executed, sys', ⟨⟨perf, run⟩, loaded, cpu, sys, _⟩⟩ :=
    regular.contained.executes law unwritten (regular.contained.represents law unwritten rep n)
  have allowed : (pmpCheck (t.state n).world.sys (t.state n).cpu.pc true false).2 = (t.state n).world.sys := by
    unfold pmpCheck
    rw [if_pos ⟨regular.unprotected n, regular.machine n⟩]
  have word := regular.contained.word (f := f) (Nat.le_refl n)
  rw [allowed] at run
  change loadLE (t.memory f n).bytes (t.state n).cpu.pc.toNat 4 = _ at word
  rw [word] at run
  obtain ⟨_, atPc, raw⟩ := irDecode_fetched (t.state n).cpu.gpr ((loadLE f.bytes (t.pc n).toNat 4).setWidth 32)
    (t.state n).cpu.pc (t.stack n)
  have idem := irDecode_idem (t.state n).cpu.gpr ((loadLE f.bytes (t.pc n).toNat 4).setWidth 32) (t.state n).cpu.pc
    ((t.state n).cpu.pc + 4) (t.stack n)
  generalize irDecode (t.state n).cpu.gpr ((loadLE f.bytes (t.pc n).toNat 4).setWidth 32) (t.state n).cpu.pc
    ((t.state n).cpu.pc + 4) (t.stack n) = decoded at run atPc raw idem
  have awaits : decoded.Awaits (t.state n).cpu := ⟨atPc, by rw [raw, atPc]; exact idem⟩
  obtain ⟨same, _, src2⟩ := irExecute_sameInst run
  have similar : (t.inst n).Similar executed := by
    rw [loaded]
    exact .loaded executed _
  have fields : (t.inst n).execFn = decoded.execFn ∧ (t.inst n).src2Val = decoded.src2Val := by
    rw [← same.execFn, ← src2, loaded, IRInst.loaded]
    split <;> exact ⟨rfl, rfl⟩
  have permitted : decoded.Permitted := by
    have allowed := regular.permitted n
    unfold IRInst.Permitted csrNo at allowed ⊢
    rw [fields.1, fields.2] at allowed
    exact allowed
  constructor
  · rw [← similar.pc, same.pc, atPc]
    rfl
  · rw [← similar.raw, same.raw, raw]
  · exact cpu
  · intro load
    have kind := similar.itype.trans load
    rw [loaded, IRInst.loaded, if_pos kind]
  · intro d sys₁ awaits' word' sameSys perf'
    have raws : d.raw = decoded.raw := by
      rw [word', ← similar.raw, same.raw]
    obtain ⟨x, s, run', outcome, after⟩ := irExecute_similar awaits awaits' raws permitted (regular.machine n) sameSys perf' run
    refine ⟨x, s, run', similar.trans outcome, ?_⟩
    rw [sys]
    exact ⟨after.arch, after.hart⟩

/-- A functional run stays on its hart. -/
theorem Contained.hart (contained : t.Contained) (law : CoherentMemory vm Rep) (unwritten : f.written = ∅)
    (rep : Rep (t.state 0).world f) (n : Nat) : (t.state n).world.sys.hartid = (t.state 0).world.sys.hartid := by
  induction n with
  | zero => rfl
  | succ n ih =>
      obtain ⟨_, _, ⟨⟨_, run⟩, _, _, sys, _⟩⟩ := contained.executes law unwritten (contained.represents law unwritten rep n)
      rw [sys, ← ih]
      exact (irExecute_hartid run).trans (pmpCheck_hartid ..)

/-- An instruction performed in the state of the functional run is the functional run's. -/
theorem Determined.performs {n : Nat} (determined : t.Determined f n) {h : Fin 2} {ir : IRInst} {b : CoreArch}
    (hart : (t.state n).world.sys.hartid = h) (performs : Performs h (t.arch n) ir b) (raw : ir.raw = (t.inst n).raw) :
    (t.inst n).Similar ir ∧ (((t.inst n).itype = .load → ir.result = (t.inst n).result) → b = t.arch (n + 1)) := by
  cases performs with
  | intro value awaits hart' arch run =>
      rename_i perf sys sys' decoded executed
      have same : (t.state n).world.sys.SameArch sys := .of_save arch.symm (by rw [hart', hart])
      obtain ⟨sameInst, _⟩ := irExecute_sameInst run
      obtain ⟨x, s, run', similar, after⟩ := determined.executed awaits
        (by rw [← raw, withLoad_raw, sameInst.raw]) same perf
      cases run.symm.trans run'
      have outcome := similar.trans (.withLoad executed value)
      refine ⟨outcome, fun loads => ?_⟩
      have written := outcome.writeback loads (t.state n).cpu.gpr
      unfold Trace.arch
      rw [determined.cpu, after.arch, ← written, similar.dnpc]
      rfl

end Trace

/-! ## Programs that only read memory -/

/-- The instruction at the program counter, decoded from flat memory. -/
def flatDecode (mem : ByteMem) (cpu : CPUState) : IRInst :=
  irDecode cpu.gpr ((loadLE mem cpu.pc.toNat 4).setWidth 32) cpu.pc (cpu.pc + 4) .zero

/-- The instruction at the program counter, executed on flat memory. -/
def flatInst (mem : ByteMem) (cpu : CPUState) : IRInst :=
  match (flatDecode mem cpu).execFn.pure with
  | some run => (run (flatDecode mem cpu)).loaded mem
  | none => flatDecode mem cpu

/-- Registers and program counter after it. -/
def flatNext (mem : ByteMem) (cpu : CPUState) : CPUState :=
  ⟨irWriteback (flatInst mem cpu) cpu.gpr, (flatInst mem cpu).dnpc⟩

/-- The instruction at the program counter is plain and writes no memory. -/
structure FlatReads (mem : ByteMem) (cpu : CPUState) : Prop where
  code : inDram cpu.pc = true ∧ InLine cpu.pc 4
  plain : (flatDecode mem cpu).execFn.itype.Plain = true
  store : (flatInst mem cpu).itype ≠ .store
  load : (flatInst mem cpu).itype = .load →
    inDram (flatInst mem cpu).memAddr = true ∧ InLine (flatInst mem cpu).memAddr (flatInst mem cpu).memWidth

theorem flatReads_iff (mem : ByteMem) (cpu : CPUState) : FlatReads mem cpu ↔
    (inDram cpu.pc = true ∧ InLine cpu.pc 4) ∧ (flatDecode mem cpu).execFn.itype.Plain = true ∧
      (flatInst mem cpu).itype ≠ .store ∧ ((flatInst mem cpu).itype = .load →
        inDram (flatInst mem cpu).memAddr = true ∧ InLine (flatInst mem cpu).memAddr (flatInst mem cpu).memWidth) :=
  ⟨fun reads => ⟨reads.code, reads.plain, reads.store, reads.load⟩, fun all => ⟨all.1, all.2.1, all.2.2.1, all.2.2.2⟩⟩

instance (mem : ByteMem) (cpu : CPUState) : Decidable (FlatReads mem cpu) := decidable_of_iff' _ (flatReads_iff mem cpu)

/-- A machine with memory `f` and no protection. -/
structure Unprotected (cores : Nat) (f : Flat) (m : Machine (MemState Unit)) : Prop where
  memory : Represents (.plain cores) f m.world
  machine : m.world.sys.privLevel = machineLevel
  unprotected : m.world.sys.pmpOnCount = 0

theorem Unprotected.next {cores : Nat} {f : Flat} {m : Machine (MemState Unit)} (here : Unprotected cores f m)
    (unwritten : f.written = ∅) (reads : FlatReads f.bytes m.cpu) : ∃ m',
      execOnce (hierarchy (.plain cores)) .zero m = some (flatInst f.bytes m.cpu, m') ∧ Unprotected cores f m' ∧
        m'.cpu = flatNext f.bytes m.cpu := by
  have law : CoherentMemory (hierarchy (.plain cores)) fun w f => Represents (.plain cores) f w := hierarchy_coherent rfl
  have allowed : (pmpCheck m.world.sys m.cpu.pc true false).2 = m.world.sys := by
    unfold pmpCheck
    rw [if_pos ⟨here.unprotected, here.machine⟩]
  obtain ⟨word, w, fetched, sys, after, same⟩ := law.ifetch 4 here.memory reads.code.1
  have value : word = loadLE f.bytes m.cpu.pc.toNat 4 :=
    same reads.code.2 fun _ _ _ => by rw [unwritten]; exact Set.notMem_empty _
  obtain ⟨run, executor⟩ := plain_pure reads.plain
  have inst : flatInst f.bytes m.cpu = (run (flatDecode f.bytes m.cpu)).loaded f.bytes := by
    unfold flatInst
    rw [executor]
  obtain ⟨itype, addr, width⟩ : (flatInst f.bytes m.cpu).itype = (run (flatDecode f.bytes m.cpu)).itype ∧
      (flatInst f.bytes m.cpu).memAddr = (run (flatDecode f.bytes m.cpu)).memAddr ∧
      (flatInst f.bytes m.cpu).memWidth = (run (flatDecode f.bytes m.cpu)).memWidth := by
    rw [inst, IRInst.loaded]
    split <;> exact ⟨rfl, rfl, rfl⟩
  have executed : irExecute ((hierarchy (.plain cores)).perf w) (flatDecode f.bytes m.cpu) w.sys =
      some (run (flatDecode f.bytes m.cpu), w.sys) := by
    unfold irExecute
    rw [executor]
  have accessed : ∃ w', irMemAccess (hierarchy (.plain cores)) (run (flatDecode f.bytes m.cpu)) w =
      some (flatInst f.bytes m.cpu, w') ∧ w'.sys = w.sys ∧ Represents (.plain cores) f w' := by
    rw [inst]
    unfold irMemAccess IRInst.loaded
    split
    · next load =>
        obtain ⟨cached, inLine⟩ := reads.load (itype.trans load)
        rw [addr] at cached inLine
        rw [width] at inLine
        obtain ⟨loaded, w', read, sys', rep, bytes⟩ := law.read (run (flatDecode f.bytes m.cpu)).memWidth after cached
        rw [read, if_pos load, bytes inLine]
        exact ⟨w', rfl, sys', rep⟩
    · next store => exact absurd (itype.trans store) reads.store
    · next load _ =>
        rw [if_neg load]
        exact ⟨w, rfl, rfl, after⟩
  obtain ⟨w', access, sys', rep⟩ := accessed
  refine ⟨⟨flatNext f.bytes m.cpu, { w' with
    sys := { w'.sys with simCycles := w'.sys.simCycles + 1, simInstret := w'.sys.simInstret + 1 } }⟩, ?_,
    ⟨law.sys _ rep rfl, ?_, ?_⟩, rfl⟩
  · unfold execOnce
    simp only [allowed, fetched, Option.bind_eq_bind, Option.bind_some, value]
    change (irExecute _ (flatDecode f.bytes m.cpu) _).bind _ = _
    rw [executed]
    simp only [Option.bind_some]
    rw [access]
    rfl
  · change w'.sys.privLevel = _
    rw [sys', sys]
    exact here.machine
  · change w'.sys.pmpOnCount = _
    rw [sys', sys]
    exact here.unprotected

/-- A program that stays among finitely many register states has a run. -/
theorem Unprotected.trace {cores : Nat} {f : Flat} {m : Machine (MemState Unit)} (here : Unprotected cores f m)
    (unwritten : f.written = ∅) {cpus : List CPUState} (among : m.cpu ∈ cpus)
    (closed : ∀ cpu ∈ cpus, FlatReads f.bytes cpu ∧ flatNext f.bytes cpu ∈ cpus) :
    ∃ t : Trace (hierarchy (.plain cores)), t.state 0 = m ∧ (∀ n, (t.state n).cpu ∈ cpus) ∧
      ∀ n, ∃ cpu ∈ cpus, t.inst n = flatInst f.bytes cpu := by
  obtain ⟨t, start, states, insts⟩ := Trace.exists_of_progress .zero (P := fun m => Unprotected cores f m ∧ m.cpu ∈ cpus)
    (Q := fun ir => ∃ cpu ∈ cpus, ir = flatInst f.bytes cpu) ⟨here, among⟩ fun m holds => by
      obtain ⟨reads, next⟩ := closed m.cpu holds.2
      obtain ⟨m', done, after, cpu⟩ := holds.1.next unwritten reads
      exact ⟨_, m', done, ⟨after, cpu ▸ next⟩, m.cpu, holds.2, rfl⟩
  exact ⟨t, start, fun n => (states n).2, insts⟩

/-- The register states of a program that only reads memory, up to step `last`. -/
def flatCpus (mem : ByteMem) (start : CPUState) (last : Nat) : List CPUState :=
  (List.range (last + 1)).map fun n => (flatNext mem)^[n] start

theorem flatCpus_start (mem : ByteMem) (start : CPUState) (last : Nat) : start ∈ flatCpus mem start last :=
  List.mem_map.mpr ⟨0, List.mem_range.mpr (Nat.succ_pos _), rfl⟩

/-- A program that ends in a jump to itself stays among its register states. -/
theorem flatCpus_closed {mem : ByteMem} {start : CPUState} {last : Nat}
    (reads : ∀ n < last + 1, FlatReads mem ((flatNext mem)^[n] start))
    (blank : (flatInst mem ((flatNext mem)^[last] start)).rd.filter (· ≠ 0) = none)
    (target : (flatInst mem ((flatNext mem)^[last] start)).dnpc = ((flatNext mem)^[last] start).pc) :
    ∀ cpu ∈ flatCpus mem start last, FlatReads mem cpu ∧ flatNext mem cpu ∈ flatCpus mem start last := by
  intro cpu member
  obtain ⟨n, inside, rfl⟩ := List.mem_map.mp member
  have bound := List.mem_range.mp inside
  refine ⟨reads n bound, ?_⟩
  by_cases atEnd : n = last
  · -- The jump writes no register and stays where it is.
    have stays : flatNext mem ((flatNext mem)^[last] start) = (flatNext mem)^[last] start := by
      rw [flatNext, irWriteback_blank blank, target]
    rw [atEnd, stays]
    exact List.mem_map.mpr ⟨last, List.mem_range.mpr (Nat.lt_succ_self _), rfl⟩
  · rw [← Function.iterate_succ_apply' (flatNext mem)]
    exact List.mem_map.mpr ⟨n + 1, List.mem_range.mpr (by omega), rfl⟩

end Sustemu
