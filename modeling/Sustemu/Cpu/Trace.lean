import Sustemu.Cpu.Functional
import Sustemu.Isa.Decoded
import Sustemu.Memory.Hierarchy
import Sustemu.Lib.Forward

/-!
# Functional traces

A run of the functional engine as two sequences, its states and the
instructions it executes. For traces of plain instructions, what each
instruction computes depends only on the registers before it, on the word at
its program counter in the initial memory, and for a load on the stores before.
-/

set_option autoImplicit false

namespace Sustemu

open Lib

/-! ## Operands and outcomes -/

/-- The register operands of an instruction have their values in `gpr`. -/
structure IRInst.ReadsFrom (ir : IRInst) (gpr : RegFile) : Prop where
  src1 : ∀ r, rs1Of ir.raw = some r → ir.src1Val = gpr.get r
  src2 : ∀ r, rs2Of ir.raw = some r → ir.src2Val = gpr.get r

/-- Integer, memory and control-flow instructions: everything but system instructions, fences and malformed words. -/
def IRInstType.Plain : IRInstType → Bool
  | .alu | .load | .store | .branch | .jal | .jalr | .lui | .auipc => true
  | .csr | .system | .fence | .invalid => false

/-- Whether an executor looks at its second operand. -/
def ExecFn.usesSecond : ExecFn → Bool
  | .auipc | .lui | .jal => false
  | _ => true

/-- Whether an executor looks at the separate immediate. -/
def ExecFn.usesImm : ExecFn → Bool
  | .beq | .bne | .blt | .bge | .bltu | .bgeu | .sd | .sw | .sh | .sb => true
  | _ => false

/-- What execution determines, whatever the record held before. -/
structure IRInst.SameOutcome (ir ir' : IRInst) : Prop where
  itype : ir'.itype = ir.itype
  dnpc : ir'.dnpc = ir.dnpc
  access : ir.itype = .load ∨ ir.itype = .store →
    ir'.memAddr = ir.memAddr ∧ ir'.memWidth = ir.memWidth ∧ (ir.itype = .load → ir'.memSign = ir.memSign)
  result : ir.itype ≠ .load → ir.itype ≠ .store → ir.itype ≠ .branch → ir'.result = ir.result

section Outcome

variable {ir ir' : IRInst} (pc : ir'.pc = ir.pc) (snpc : ir'.snpc = ir.snpc) (src1 : ir'.src1Val = ir.src1Val)

include snpc src1 in
theorem irExecAlu_sameOutcome (compute : Word → Word → Word) (src2 : ir'.src2Val = ir.src2Val) :
    (irExecAlu compute ir).SameOutcome (irExecAlu compute ir') := by
  refine ⟨rfl, snpc, nofun, fun _ _ _ => ?_⟩
  simp only [irExecAlu, src1, src2]

include pc snpc src1 in
theorem irExecBranch_sameOutcome (condition : Word → Word → Bool) (src2 : ir'.src2Val = ir.src2Val)
    (imm : ir'.imm = ir.imm) : (irExecBranch condition ir).SameOutcome (irExecBranch condition ir') := by
  refine ⟨rfl, ?_, nofun, fun _ _ other => absurd rfl other⟩
  simp only [irExecBranch, src1, src2, imm, pc, snpc]

include snpc src1 in
theorem irExecLoad_sameOutcome (width : Nat) (sign : Bool) (src2 : ir'.src2Val = ir.src2Val) :
    (irExecLoad width sign ir).SameOutcome (irExecLoad width sign ir') := by
  refine ⟨rfl, snpc, fun _ => ⟨?_, rfl, fun _ => rfl⟩, fun other => absurd rfl other⟩
  simp only [irExecLoad, src1, src2]

include snpc src1 in
theorem irExecStore_sameOutcome (width : Nat) (imm : ir'.imm = ir.imm) :
    (irExecStore width ir).SameOutcome (irExecStore width ir') := by
  refine ⟨rfl, snpc, fun _ => ⟨?_, rfl, nofun⟩, fun _ other => absurd rfl other⟩
  simp only [irExecStore, src1, imm]

include pc snpc src1 in
theorem pure_sameOutcome {fn : ExecFn} {run : IRInst → IRInst} (executor : fn.pure = some run)
    (plain : fn.itype.Plain = true) (src2 : fn.usesSecond = true → ir'.src2Val = ir.src2Val)
    (imm : fn.usesImm = true → ir'.imm = ir.imm) : (run ir).SameOutcome (run ir') := by
  cases fn <;>
    first
    | cases executor; exact irExecAlu_sameOutcome snpc src1 _ (src2 rfl)
    | cases executor; exact irExecBranch_sameOutcome pc snpc src1 _ (src2 rfl) (imm rfl)
    | cases executor; exact irExecLoad_sameOutcome snpc src1 _ _ (src2 rfl)
    | cases executor; exact irExecStore_sameOutcome snpc src1 _ (imm rfl)
    | cases executor; exact ⟨rfl, snpc, nofun, fun _ _ _ => by simp only [irExecAuipc, irExecLui, src1, pc]⟩
    | cases executor; exact ⟨rfl, by simp only [irExecJal, src1, pc], nofun, fun _ _ _ => snpc⟩
    | cases executor; exact ⟨rfl, by simp only [irExecJalr, src1, src2 rfl], nofun, fun _ _ _ => snpc⟩
    | cases plain

end Outcome

/-- The operands an executor uses are registers or immediates of its format. -/
theorem irSelect_uses (raw : Raw) (plain : (irSelect raw).2.1.itype.Plain = true) :
    (∃ r, rs1Of raw = some r) ∨ (∃ value, src1Of raw = some value) := by
  have table : ∀ selected ∈ selections, selected.2.1.itype.Plain = true → selected.1 ≠ .N := by decide +kernel
  have format := table _ (irSelect_mem raw) plain
  clear table
  unfold rs1Of src1Of
  cases shape : (irSelect raw).1 <;> simp_all

theorem irSelect_usesSecond (raw : Raw) (plain : (irSelect raw).2.1.itype.Plain = true)
    (uses : (irSelect raw).2.1.usesSecond = true) : (∃ r, rs2Of raw = some r) ∨ (∃ value, src2Of raw = some value) := by
  have table : ∀ selected ∈ selections, selected.2.1.itype.Plain = true → selected.2.1.usesSecond = true →
      selected.1 ≠ .N ∧ selected.1 ≠ .U ∧ selected.1 ≠ .J := by decide +kernel
  have format := table _ (irSelect_mem raw) plain uses
  clear table
  unfold rs2Of src2Of
  cases shape : (irSelect raw).1 <;> simp_all

theorem irSelect_usesImm (raw : Raw) (uses : (irSelect raw).2.1.usesImm = true) : ∃ value, immOf raw = some value := by
  have table : ∀ selected ∈ selections, selected.2.1.usesImm = true → selected.1 = .S ∨ selected.1 = .B := by
    decide +kernel
  have format := table _ (irSelect_mem raw) uses
  clear table
  unfold immOf
  cases shape : (irSelect raw).1 <;> simp_all

/-- Two records of one instruction with operands from the same registers have the same outcome. -/
theorem IRInst.Decoded.sameOutcome {ir ir' : IRInst} (decoded : ir.Decoded) (decoded' : ir'.Decoded)
    (pc : ir'.pc = ir.pc) (raw : ir'.raw = ir.raw) {gpr : RegFile} (reads : ir.ReadsFrom gpr) (reads' : ir'.ReadsFrom gpr)
    {run : IRInst → IRInst} (executor : ir.execFn.pure = some run) (plain : ir.execFn.itype.Plain = true) :
    (run ir).SameOutcome (run ir') := by
  have fn := decoded.fn
  have src1 : ir'.src1Val = ir.src1Val := by
    rcases irSelect_uses ir.raw (by rw [← fn]; exact plain) with ⟨r, register⟩ | ⟨value, immediate⟩
    · rw [reads.src1 r register, reads'.src1 r (by rw [raw]; exact register)]
    · rw [decoded.src1 value immediate, decoded'.src1 value (by rw [raw]; exact immediate)]
  refine pure_sameOutcome pc ?_ src1 executor plain ?_ ?_
  · rw [decoded'.snpc, decoded.snpc, pc]
  · intro uses
    rcases irSelect_usesSecond ir.raw (by rw [← fn]; exact plain) (by rw [← fn]; exact uses) with
      ⟨r, register⟩ | ⟨value, immediate⟩
    · rw [reads.src2 r register, reads'.src2 r (by rw [raw]; exact register)]
    · rw [decoded.src2 value immediate, decoded'.src2 value (by rw [raw]; exact immediate)]
  · intro uses
    obtain ⟨value, immediate⟩ := irSelect_usesImm ir.raw (by rw [← fn]; exact uses)
    rw [decoded.imm value immediate, decoded'.imm value (by rw [raw]; exact immediate)]

/-! ## One instruction -/

/-- What a flat memory makes of an executed instruction: a load reads, a store writes. -/
def IRInst.loaded (ir : IRInst) (mem : ByteMem) : IRInst :=
  if ir.itype = .load then
    { ir with result := extend ir.memSign ir.memWidth (loadLE mem ir.memAddr.toNat ir.memWidth) }
  else ir

/-- The write of a store. -/
def IRInst.write (ir : IRInst) : Option Write :=
  if ir.itype = .store then some ⟨ir.memAddr.toNat, ir.memWidth, ir.src2Val⟩ else none

/-- A store performed on a flat memory. -/
def Flat.perform (f : Flat) (write : Option Write) : Flat :=
  match write with
  | some w => f.store w.addr w.width w.data
  | none => f

section Step

variable {σ : Type} {vm : VMem σ} {Rep : World σ → Flat → Prop} {stack ir : IRInst} {m m' : Machine σ} {f : Flat}

/-- One step of the functional engine over a coherent memory. -/
structure Executes (Rep : World σ → Flat → Prop) (f : Flat) (stack : IRInst) (m : Machine σ) (ir : IRInst) (m' : Machine σ)
    (executed : IRInst) (sys' : Sys) : Prop where
  run : ∃ perf, irExecute perf
    (irDecode m.cpu.gpr ((loadLE f.bytes m.cpu.pc.toNat 4).setWidth 32) m.cpu.pc (m.cpu.pc + 4) stack)
    (pmpCheck m.world.sys m.cpu.pc true false).2 = some (executed, sys')
  loaded : ir = executed.loaded f.bytes
  cpu : m'.cpu = ⟨irWriteback ir m.cpu.gpr, ir.dnpc⟩
  sys : m'.world.sys = { sys' with simCycles := sys'.simCycles + 1, simInstret := sys'.simInstret + 1 }
  memory : Rep m'.world (f.perform ir.write)

theorem InLine.of_aligned {pc : Word} (aligned : pc.toNat % 4 = 0) : InLine pc 4 := by
  unfold InLine blockSize
  omega

/-- A memory access over a coherent memory. -/
theorem irMemAccess_performs {w w' : World σ} {executed : IRInst} (law : CoherentMemory vm Rep) (rep : Rep w f)
    (access : executed.itype = .load ∨ executed.itype = .store →
      inDram executed.memAddr = true ∧ InLine executed.memAddr executed.memWidth)
    (accessed : irMemAccess vm executed w = some (ir, w')) :
    ir = executed.loaded f.bytes ∧ w'.sys = w.sys ∧ Rep w' (f.perform ir.write) := by
  unfold irMemAccess at accessed
  split at accessed
  · next load =>
      obtain ⟨⟨raw, w₃⟩, read, same⟩ := Option.map_eq_some_iff.mp accessed
      cases same
      obtain ⟨cached, inside⟩ := access (.inl load)
      obtain ⟨_, _, found, sys, after, value⟩ := law.read executed.memWidth rep cached
      cases found.symm.trans read
      have noWrite : ({ executed with result := extend executed.memSign executed.memWidth raw } : IRInst).write = none := by
        unfold IRInst.write
        rw [if_neg]
        exact fun store => nomatch load.symm.trans store
      refine ⟨?_, sys, ?_⟩
      · unfold IRInst.loaded
        rw [if_pos load, value inside]
      · rw [noWrite]
        exact after
  · next store =>
      obtain ⟨w₃, written, same⟩ := Option.map_eq_some_iff.mp accessed
      cases same
      obtain ⟨cached, inside⟩ := access (.inr store)
      obtain ⟨_, found, sys, after⟩ := law.write ir.src2Val rep cached inside
      cases found.symm.trans written
      refine ⟨?_, sys, ?_⟩
      · unfold IRInst.loaded
        rw [if_neg]
        exact fun load => nomatch load.symm.trans store
      · unfold IRInst.write
        rw [if_pos store]
        exact after
  · next other notStore =>
      cases accessed
      refine ⟨?_, rfl, ?_⟩
      · unfold IRInst.loaded
        rw [if_neg other]
      · unfold IRInst.write
        rw [if_neg notStore]
        exact rep

theorem irMemAccess_fields {w w' : World σ} {executed : IRInst} (accessed : irMemAccess vm executed w = some (ir, w')) :
    ir.itype = executed.itype ∧ ir.memAddr = executed.memAddr ∧ ir.memWidth = executed.memWidth := by
  unfold irMemAccess at accessed
  split at accessed
  · obtain ⟨_, _, same⟩ := Option.map_eq_some_iff.mp accessed
    cases same
    exact ⟨rfl, rfl, rfl⟩
  · obtain ⟨_, _, same⟩ := Option.map_eq_some_iff.mp accessed
    cases same
    exact ⟨rfl, rfl, rfl⟩
  · cases accessed
    exact ⟨rfl, rfl, rfl⟩

theorem execOnce_executes (law : CoherentMemory vm Rep) (rep : Rep m.world f) (mapped : inDram m.cpu.pc = true)
    (aligned : m.cpu.pc.toNat % 4 = 0)
    (fresh : ∀ byte, m.cpu.pc.toNat ≤ byte → byte < m.cpu.pc.toNat + 4 → byte ∉ f.written)
    (access : ir.itype = .load ∨ ir.itype = .store → inDram ir.memAddr = true ∧ InLine ir.memAddr ir.memWidth)
    (done : execOnce vm stack m = some (ir, m')) : ∃ executed sys', Executes Rep f stack m ir m' executed sys' := by
  obtain ⟨word, w₁, executed, sys', w₂, fetched, run, accessed, rfl⟩ := execOnce_steps done
  have hart := pmpCheck_hartid m.world.sys m.cpu.pc true false
  obtain ⟨value, w, found, sys₁, rep₁, same⟩ := law.ifetch 4 (law.sys _ rep hart) mapped
  cases found.symm.trans fetched
  rw [same (.of_aligned aligned) fresh, sys₁] at run
  have rep₂ : Rep { w₁ with sys := sys' } f := by
    apply law.sys sys' rep₁
    rw [irExecute_hartid run, sys₁]
  obtain ⟨itype, addr, width⟩ := irMemAccess_fields accessed
  rw [itype, addr, width] at access
  obtain ⟨loaded, sys, after⟩ := irMemAccess_performs law rep₂ access accessed
  refine ⟨executed, sys', ⟨_, run⟩, loaded, rfl, ?_, law.sys _ after rfl⟩
  rw [sys]

/-- The memory after one step of the functional engine, and what a load reads, whatever the word that was executed. -/
theorem execOnce_performs (law : CoherentMemory vm Rep) (rep : Rep m.world f) (mapped : inDram m.cpu.pc = true)
    (access : ir.itype = .load ∨ ir.itype = .store → inDram ir.memAddr = true ∧ InLine ir.memAddr ir.memWidth)
    (done : execOnce vm stack m = some (ir, m')) : Rep m'.world (f.perform ir.write) ∧
      (ir.itype = .load → ir.result = extend ir.memSign ir.memWidth (loadLE f.bytes ir.memAddr.toNat ir.memWidth)) := by
  obtain ⟨word, w₁, executed, sys', w₂, fetched, run, accessed, rfl⟩ := execOnce_steps done
  have hart := pmpCheck_hartid m.world.sys m.cpu.pc true false
  obtain ⟨_, _, found, sys₁, rep₁, _⟩ := law.ifetch 4 (law.sys _ rep hart) mapped
  cases found.symm.trans fetched
  have rep₂ : Rep { w₁ with sys := sys' } f := by
    apply law.sys sys' rep₁
    exact irExecute_hartid run
  obtain ⟨itype, addr, width⟩ := irMemAccess_fields accessed
  rw [itype, addr, width] at access
  obtain ⟨loaded, _, after⟩ := irMemAccess_performs law rep₂ access accessed
  refine ⟨law.sys _ after rfl, fun load => ?_⟩
  rw [loaded]
  unfold IRInst.loaded
  rw [if_pos (itype.symm.trans load)]

end Step

/-! ## Destinations -/

theorem irWriteback_blank {ir : IRInst} (blank : ir.rd.filter (· ≠ 0) = none) (gpr : RegFile) : irWriteback ir gpr = gpr := by
  unfold irWriteback
  split
  · next rd named =>
      have zero : rd = 0 := by simpa [named, Option.filter] using blank
      apply RegFile.ext
      intro a
      rw [zero, RegFile.get_set]
      by_cases here : a = 0
      · rw [if_pos here, here, RegFile.get_zero]
      · rw [if_neg here, if_neg here]
  · rfl

theorem irWriteback_dest {ir : IRInst} {a : Reg} (dest : ir.rd.filter (· ≠ 0) = some a) (gpr : RegFile) :
    irWriteback ir gpr = gpr.set a ir.result ∧ a ≠ 0 := by
  obtain ⟨named, nonzero⟩ := Option.filter_eq_some_iff.mp dest
  refine ⟨?_, by simpa using nonzero⟩
  unfold irWriteback
  rw [named]

/-! ## Traces -/

/-- A run of the functional engine: its states and the instructions between them. -/
structure Trace {σ : Type} (vm : VMem σ) where
  stack : Nat → IRInst
  state : Nat → Machine σ
  inst : Nat → IRInst
  step : ∀ n, execOnce vm (stack n) (state n) = some (inst n, state (n + 1))

namespace Trace

variable {σ : Type} {vm : VMem σ} {Rep : World σ → Flat → Prop} {f : Flat} (t : Trace vm)

def pc (n : Nat) : Word := (t.state n).cpu.pc

def gpr (n : Nat) : RegFile := (t.state n).cpu.gpr

/-- The writes of the first `n` instructions, in order. -/
def writes (n : Nat) : List Write := (List.range n).filterMap fun i => (t.inst i).write

/-- The flat memory before instruction `n`. -/
def memory (f : Flat) : Nat → Flat
  | 0 => f
  | n + 1 => (memory f n).perform (t.inst n).write

/-- Code is aligned in cacheable memory and never written before it is fetched, and data accesses
are cacheable and stay inside their lines. -/
structure Contained : Prop where
  mapped : ∀ n, inDram (t.pc n) = true
  aligned : ∀ n, (t.pc n).toNat % 4 = 0
  accesses : ∀ n, (t.inst n).itype = .load ∨ (t.inst n).itype = .store →
    inDram (t.inst n).memAddr = true ∧ InLine (t.inst n).memAddr (t.inst n).memWidth
  code : ∀ i n, i < n → ∀ w ∈ (t.inst i).write, Apart w.addr w.width (t.pc n).toNat 4

variable {t}

theorem writes_succ (t : Trace vm) (n : Nat) : t.writes (n + 1) = t.writes n ++ (t.inst n).write.toList := by
  unfold writes
  rw [List.range_succ, List.filterMap_append]
  cases write : (t.inst n).write with
  | none => simp [write]
  | some w => simp [write]

theorem memory_bytes (t : Trace vm) (f : Flat) (n : Nat) : (t.memory f n).bytes = applyWrites f.bytes (t.writes n) := by
  induction n with
  | zero => rfl
  | succ n ih =>
      rw [writes_succ, applyWrites_append, ← ih, memory]
      cases (t.inst n).write with
      | none => rfl
      | some w => rfl

theorem memory_written {n byte : Nat} (written : byte ∈ (t.memory f n).written) :
    byte ∈ f.written ∨ ∃ i w, i < n ∧ (t.inst i).write = some w ∧ w.addr ≤ byte ∧ byte < w.addr + w.width := by
  induction n with
  | zero => exact .inl written
  | succ n ih =>
      have earlier : byte ∈ (t.memory f n).written → byte ∈ f.written ∨
          ∃ i w, i < n + 1 ∧ (t.inst i).write = some w ∧ w.addr ≤ byte ∧ byte < w.addr + w.width := by
        intro before
        rcases ih before with initial | ⟨i, w, older, rest⟩
        · exact .inl initial
        · exact .inr ⟨i, w, by omega, rest⟩
      rw [memory] at written
      cases write : (t.inst n).write with
      | none =>
          rw [write] at written
          exact earlier written
      | some w =>
          rw [write] at written
          rcases written with before | here
          · exact earlier before
          · exact .inr ⟨n, w, by omega, write, here⟩

/-- The bytes of an instruction are never written before it is fetched. -/
theorem Contained.fresh (contained : t.Contained) (unwritten : f.written = ∅) {n i : Nat} (older : i ≤ n) {byte : Nat}
    (low : (t.pc n).toNat ≤ byte) (high : byte < (t.pc n).toNat + 4) : byte ∉ (t.memory f i).written := by
  intro written
  rcases memory_written written with initial | ⟨j, w, before, write, inside⟩
  · rw [unwritten] at initial
    exact initial
  · have apart := contained.code j n (by omega) w write
    unfold Apart at apart
    omega

theorem mem_writes {n : Nat} {w : Write} (member : w ∈ t.writes n) : ∃ i, i < n ∧ (t.inst i).write = some w := by
  obtain ⟨i, inside, write⟩ := List.mem_filterMap.mp member
  exact ⟨i, List.mem_range.mp inside, write⟩

/-- The word of an instruction is the one in the initial memory. -/
theorem Contained.word (contained : t.Contained) {n i : Nat} (older : i ≤ n) :
    loadLE (t.memory f i).bytes (t.pc n).toNat 4 = loadLE f.bytes (t.pc n).toNat 4 := by
  rw [memory_bytes]
  apply loadLE_applyWrites
  intro w member
  obtain ⟨j, before, same⟩ := mem_writes member
  exact contained.code j n (by omega) w same

theorem Contained.executes (contained : t.Contained) (law : CoherentMemory vm Rep) (unwritten : f.written = ∅) {n : Nat}
    (rep : Rep (t.state n).world (t.memory f n)) : ∃ executed sys',
      Executes Rep (t.memory f n) (t.stack n) (t.state n) (t.inst n) (t.state (n + 1)) executed sys' :=
  execOnce_executes law rep (contained.mapped n) (contained.aligned n)
    (fun _ low high => contained.fresh unwritten (Nat.le_refl n) low high) (contained.accesses n) (t.step n)

/-- The functional engine keeps its memory represented. -/
theorem Contained.represents (contained : t.Contained) (law : CoherentMemory vm Rep) (unwritten : f.written = ∅)
    (rep : Rep (t.state 0).world f) (n : Nat) : Rep (t.state n).world (t.memory f n) := by
  induction n with
  | zero => exact rep
  | succ n ih =>
      obtain ⟨_, _, executes⟩ := contained.executes law unwritten ih
      exact executes.memory

/-- The states of repeated `exec_once`, for as long as it does not get stuck. -/
def iterate (vm : VMem σ) (stack : Nat → IRInst) (m : Machine σ) : Nat → Machine σ
  | 0 => m
  | n + 1 =>
      match execOnce vm (stack n) (iterate vm stack m n) with
      | some (_, m') => m'
      | none => iterate vm stack m n

/-- The trace of a run that never gets stuck. -/
def ofRun (vm : VMem σ) (stack : Nat → IRInst) (m : Machine σ)
    (total : ∀ n, (execOnce vm (stack n) (iterate vm stack m n)).isSome = true) : Trace vm where
  stack := stack
  state := iterate vm stack m
  inst := fun n => ((execOnce vm (stack n) (iterate vm stack m n)).get (total n)).1
  step := by
    intro n
    obtain ⟨⟨ir, m'⟩, done⟩ := Option.isSome_iff_exists.mp (total n)
    simp only [iterate, done, Option.get_some]

/-- An invariant of `exec_once` that rules out getting stuck gives a trace of states that satisfy it. -/
theorem exists_of_progress (stack : IRInst) {P : Machine σ → Prop} {Q : IRInst → Prop} {m : Machine σ} (initial : P m)
    (progress : ∀ m, P m → ∃ ir m', execOnce vm stack m = some (ir, m') ∧ P m' ∧ Q ir) :
    ∃ t : Trace vm, t.state 0 = m ∧ (∀ n, P (t.state n)) ∧ ∀ n, Q (t.inst n) := by
  have holds : ∀ n, P (iterate vm (fun _ => stack) m n) := by
    intro n
    induction n with
    | zero => exact initial
    | succ n ih =>
        obtain ⟨ir, m', done, after, _⟩ := progress _ ih
        simp only [iterate, done]
        exact after
  have total : ∀ n, (execOnce vm stack (iterate vm (fun _ => stack) m n)).isSome = true := by
    intro n
    obtain ⟨ir, m', done, _⟩ := progress _ (holds n)
    rw [done]
    rfl
  refine ⟨ofRun vm (fun _ => stack) m total, rfl, holds, ?_⟩
  intro n
  obtain ⟨ir, m', done, _, good⟩ := progress _ (holds n)
  simp only [ofRun, done, Option.get_some]
  exact good

end Trace

/-! ## Plain instructions -/

theorem irDecode_reads (gpr : RegFile) (raw : Raw) (pc : Word) (junk : IRInst) :
    (irDecode gpr raw pc (pc + 4) junk).ReadsFrom gpr := by
  have word := (irDecode_fetched gpr raw pc junk).2.2
  constructor
  · intro r register
    rw [word] at register
    unfold rs1Of at register
    unfold irDecode irFillOperands
    cases format : (irSelect raw).1 <;> simp_all
  · intro r register
    rw [word] at register
    unfold rs2Of at register
    unfold irDecode irFillOperands
    cases format : (irSelect raw).1 <;> simp_all

theorem plain_pure {fn : ExecFn} (plain : fn.itype.Plain = true) : ∃ run, fn.pure = some run := by
  cases fn <;> first | exact ⟨_, rfl⟩ | cases plain

theorem pure_rd {fn : ExecFn} {run : IRInst → IRInst} (executor : fn.pure = some run) (plain : fn.itype.Plain = true)
    (ir : IRInst) : (run ir).rd = ir.rd ∧ (run ir).fault = ir.fault := by
  cases fn <;> first | cases executor; exact ⟨rfl, rfl⟩ | cases plain

/-- Everything the other engines need to know of a plain instruction of a functional run. -/
structure Trace.Known {σ : Type} {vm : VMem σ} (t : Trace vm) (f : Flat) (n : Nat) : Prop where
  pc : (t.inst n).pc = t.pc n
  raw : (t.inst n).raw = (loadLE f.bytes (t.pc n).toNat 4).setWidth 32
  decoded : (t.inst n).Decoded
  rd : (t.inst n).rd = rdOf (t.inst n).raw
  reads : (t.inst n).ReadsFrom (t.gpr n)
  kind : (t.inst n).itype = (t.inst n).execFn.itype
  load : (t.inst n).itype = .load → (t.inst n).result = extend (t.inst n).memSign (t.inst n).memWidth
    (loadLE (t.memory f n).bytes (t.inst n).memAddr.toNat (t.inst n).memWidth)
  outcome : ∀ ir : IRInst, ir.Decoded → ir.pc = (t.inst n).pc → ir.raw = (t.inst n).raw → ir.ReadsFrom (t.gpr n) →
    ∃ run, ir.execFn.pure = some run ∧ (t.inst n).SameOutcome (run ir)
  next : t.pc (n + 1) = (t.inst n).dnpc
  regs : t.gpr (n + 1) = irWriteback (t.inst n) (t.gpr n)

namespace Trace

variable {σ : Type} {vm : VMem σ} {Rep : World σ → Flat → Prop} {f : Flat} {t : Trace vm}

theorem Contained.known (contained : t.Contained) (law : CoherentMemory vm Rep) (unwritten : f.written = ∅)
    (rep : Rep (t.state 0).world f) {n : Nat} (plain : (t.inst n).itype.Plain = true) : t.Known f n := by
  obtain ⟨executed, sys', ⟨⟨perf, run⟩, loaded, cpu, _, _⟩⟩ :=
    contained.executes law unwritten (contained.represents law unwritten rep n)
  have word := contained.word (f := f) (Nat.le_refl n)
  unfold Trace.pc at word
  rw [word] at run
  obtain ⟨fetched, atPc, raw⟩ := irDecode_fetched (t.gpr n) ((loadLE f.bytes (t.pc n).toNat 4).setWidth 32) (t.pc n) (t.stack n)
  have reads := irDecode_reads (t.gpr n) ((loadLE f.bytes (t.pc n).toNat 4).setWidth 32) (t.pc n) (t.stack n)
  change irExecute perf (irDecode (t.gpr n) ((loadLE f.bytes (t.pc n).toNat 4).setWidth 32) (t.pc n) (t.pc n + 4) (t.stack n)) _ =
    some _ at run
  generalize irDecode (t.gpr n) ((loadLE f.bytes (t.pc n).toNat 4).setWidth 32) (t.pc n) (t.pc n + 4) (t.stack n) = decoded
    at run fetched atPc raw reads
  obtain ⟨same, src1, src2⟩ := irExecute_sameInst run
  have kind := irExecute_itype run
  have itype : (t.inst n).itype = executed.itype := by
    rw [loaded, IRInst.loaded]
    split <;> rfl
  have plainFn : decoded.execFn.itype.Plain = true := by
    rw [← kind, ← itype]
    exact plain
  obtain ⟨step, executor⟩ := plain_pure plainFn
  have stepped : executed = step decoded := by
    unfold irExecute at run
    rw [executor] at run
    exact (congrArg Prod.fst (Option.some.inj run)).symm
  have sameLoaded : executed.SameInst (t.inst n) ∧ (t.inst n).src1Val = executed.src1Val ∧
      (t.inst n).src2Val = executed.src2Val ∧ (t.inst n).rd = executed.rd := by
    rw [loaded, IRInst.loaded]
    split
    · exact ⟨⟨rfl, rfl, rfl, rfl, rfl, rfl, rfl, rfl, id, fun _ => rfl⟩, rfl, rfl, rfl⟩
    · exact ⟨.refl _, rfl, rfl, rfl⟩
  obtain ⟨sameL, src1L, src2L, rdL⟩ := sameLoaded
  have whole := same.trans sameL
  have src1W : (t.inst n).src1Val = decoded.src1Val := src1L.trans src1
  have src2W : (t.inst n).src2Val = decoded.src2Val := src2L.trans src2
  have rawW : (t.inst n).raw = decoded.raw := whole.raw
  constructor
  · rw [whole.pc, atPc]
  · rw [rawW, raw]
  · exact fetched.decoded.sameInst whole (fun _ => src1W) fun _ => src2W
  · rw [rdL, stepped, (pure_rd executor plainFn decoded).1, fetched.rd, rawW]
  · constructor
    · rw [rawW, src1W]
      exact reads.src1
    · rw [rawW, src2W]
      exact reads.src2
  · rw [itype, kind, whole.execFn]
  · intro load
    rw [loaded, IRInst.loaded, if_pos (itype ▸ load)]
  · intro ir decodedIr pcIr rawIr readsIr
    have fn : ir.execFn = decoded.execFn := by
      rw [decodedIr.fn, fetched.decoded.fn, rawIr, rawW]
    refine ⟨step, fn ▸ executor, ?_⟩
    have outcome := fetched.decoded.sameOutcome decodedIr (pcIr.trans whole.pc) (rawIr.trans rawW) reads readsIr executor
      plainFn
    rw [← stepped] at outcome
    rw [loaded, IRInst.loaded]
    split
    · next load => exact ⟨outcome.itype, outcome.dnpc, outcome.access, fun other => absurd load other⟩
    · exact outcome
  · exact congrArg CPUState.pc cpu
  · exact congrArg CPUState.gpr cpu

end Trace

end Sustemu
