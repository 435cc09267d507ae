import Sustemu.Ooo.Engine
import Sustemu.Cpu.Core

/-!
# The in-order pipeline

The structures and stages of `pipeline.c`. The four latches are slots of one
array that the stages reach through pointers, and a cycle ends by rotating the
pointers. `none` stands for a failed assertion or the `abort` of differential
testing. The log lists the memory accesses performed and the instructions
retired.
-/

set_option autoImplicit false

namespace Sustemu

open Lib

/-- The latches, named after the stage that works on them. -/
inductive Latch where
  | id | ex | mem | wb
  deriving DecidableEq, Repr

/-- The pointers never share a slot, so the record carries that fact. -/
structure Pipeline where
  slots : Fin 4 → PipeReg
  ptr : Latch → Fin 4
  apart : Function.Injective ptr
  fetchPc : Word
  memStallRem : Nat

structure PipeStats where
  cycles : Nat
  insts : Nat
  stallLoadUse : Nat
  stallControl : Nat
  stallCacheMiss : Nat

def PipeStats.zero : PipeStats := ⟨0, 0, 0, 0, 0⟩

namespace Pipeline

/-- What a latch holds. -/
def reg (p : Pipeline) (l : Latch) : PipeReg := p.slots (p.ptr l)

def set (p : Pipeline) (l : Latch) (r : PipeReg) : Pipeline :=
  { p with slots := setAt p.slots (p.ptr l) r }

def kill (p : Pipeline) (l : Latch) : Pipeline := p.set l { p.reg l with valid := false }

/-- Latch pointers of `pipeline_init`. -/
def initPtr : Latch → Fin 4
  | .id => 0
  | .ex => 1
  | .mem => 2
  | .wb => 3

/-- Which latch's slot each latch takes over at the end of a cycle. The slot of the write-back latch is
the one `stage_IF` fetches into; on a load-use stall it is empty and goes to the execute stage. -/
def source (stalled : Bool) : Latch → Latch
  | .wb => .mem
  | .mem => .ex
  | .ex => if stalled then .wb else .id
  | .id => if stalled then .id else .wb

theorem initPtr_injective : Function.Injective initPtr := by
  intro l l'
  cases l <;> cases l' <;> first | (intro; rfl) | (intro h; exact absurd h (by decide))

theorem source_injective (stalled : Bool) : Function.Injective (source stalled) := by
  intro l l'
  cases stalled <;> cases l <;> cases l' <;> first | (intro; rfl) | (intro h; exact absurd h (by decide))

/-- `pipeline_init`: the slots keep their contents but are empty. -/
def init (slots : Fin 4 → PipeReg) (pc : Word) : Pipeline where
  slots := fun i => { slots i with valid := false }
  ptr := initPtr
  apart := initPtr_injective
  fetchPc := pc
  memStallRem := 0

/-- The rotation that ends a cycle. -/
def rotate (p : Pipeline) (stalled : Bool) : Pipeline :=
  { p with ptr := p.ptr ∘ source stalled, apart := p.apart.comp (source_injective stalled) }

/-- An instruction is fetched into the slot that the write-back stage has emptied. -/
def fetch (p : Pipeline) (ir : IRInst) (next : Word) : Pipeline := { p.set .wb ⟨ir, true⟩ with fetchPc := next }

/-- A control transfer empties the latch behind the execute stage and restarts the fetch. -/
def redirect (p : Pipeline) (pc : Word) : Pipeline := { (p.kill .id).kill .wb with fetchPc := pc }

@[simp] theorem reg_set_self (p : Pipeline) (l : Latch) (r : PipeReg) : (p.set l r).reg l = r := by
  simp [reg, set]

@[simp] theorem reg_set_of_ne (p : Pipeline) {l l' : Latch} (other : l' ≠ l) (r : PipeReg) :
    (p.set l r).reg l' = p.reg l' := by
  unfold reg set
  exact setAt_of_ne (p.apart.ne other) _ _

theorem reg_fetch_self (p : Pipeline) (ir : IRInst) (next : Word) : (p.fetch ir next).reg .wb = ⟨ir, true⟩ :=
  p.reg_set_self .wb ⟨ir, true⟩

theorem reg_fetch_of_ne (p : Pipeline) {l : Latch} (other : l ≠ .wb) (ir : IRInst) (next : Word) :
    (p.fetch ir next).reg l = p.reg l := p.reg_set_of_ne other ⟨ir, true⟩

@[simp] theorem reg_rotate (p : Pipeline) (stalled : Bool) (l : Latch) :
    (p.rotate stalled).reg l = p.reg (source stalled l) := rfl

end Pipeline

/-- What a pipeline did. -/
inductive PipeEvent where
  | access (ir : IRInst)
  | retire (ir : IRInst)

structure PipeConfig (β : Type) where
  difftestEn : Bool
  bpred : BPred β
  /-- Contents of the uninitialised record of `difftest_step`. -/
  stackIr : IRInst

structure Inorder (σ β : Type) where
  pipe : Pipeline
  stats : PipeStats
  cpu : CPUState
  world : World σ
  bpred : β
  diffCpu : CPUState
  diffInit : Bool
  log : List PipeEvent

/-- An operand read again: `-1` and `x0` keep what the record holds. -/
def operand (value : Reg → Option Word) (rs : Option Reg) (old : Word) : Word :=
  ((rs.filter (· ≠ 0)).bind value).getD old

/-- Both operands read again. -/
def IRInst.reread (ir : IRInst) (value : Reg → Option Word) : IRInst :=
  { ir with src1Val := operand value ir.rs1 ir.src1Val, src2Val := operand value ir.rs2 ir.src2Val }

/-- The prediction noted in a fetched instruction. -/
def IRInst.annotate (ir : IRInst) (taken : Bool) (next : Word) : IRInst :=
  { ir with bpPredictTaken := taken, bpPredictedPc := next }

/-- The result an instruction forwards to a reader of register `r`. -/
def PipeReg.forwards (p : PipeReg) (r : Reg) : Option Word :=
  if p.valid ∧ p.ir.rd = some r then some p.ir.result else none

namespace Inorder

variable {σ β : Type} (vm : VMem σ) (cfg : PipeConfig β)

def emit (e : Inorder σ β) (event : PipeEvent) : Inorder σ β := { e with log := e.log ++ [event] }

def setSys (e : Inorder σ β) (sys : Sys) : Inorder σ β := { e with world := { e.world with sys := sys } }

/-- `pipeline_init` on whatever the slots held. -/
def init (slots : Fin 4 → PipeReg) (cpu : CPUState) (world : World σ) (bpred : β) (diffCpu : CPUState)
    (diffInit : Bool) : Inorder σ β where
  pipe := .init slots cpu.pc
  stats := .zero
  cpu := cpu
  world := world
  bpred := if cfg.bpred.enabled then cfg.bpred.init bpred else bpred
  diffCpu := diffCpu
  diffInit := diffInit
  log := []

/-! ## Differential testing -/

/-- The reference registers; the first retired instruction sets them up. -/
def reference (e : Inorder σ β) (committed : IRInst) : CPUState :=
  if e.diffInit then e.diffCpu else ⟨e.cpu.gpr, committed.pc⟩

/-- The reference execution of a retired instruction. -/
def difftestRef (ref : CPUState) (committed : IRInst) (e : Inorder σ β) : Option (IRInst × World σ) := do
  let ir := irDecode e.cpu.gpr committed.raw committed.pc (committed.pc + 4) cfg.stackIr
  let ir := ir.reread fun r => some (ref.gpr.get r)
  let (ir, sys) ← irExecute (vm.perf e.world) ir e.world.sys
  irMemAccess vm ir { e.world with sys := sys }

/-- `difftest_step`. A mismatch of the program counter or, except for system instructions, of the result aborts. -/
def difftestStep (committed : IRInst) (e : Inorder σ β) : Option (Inorder σ β) :=
  if cfg.difftestEn then
    let ref := e.reference committed
    if committed.pc ≠ ref.pc then none
    else (difftestRef vm cfg ref committed e).bind fun (ir, world) =>
      let gpr := irWriteback ir ref.gpr
      let isCsr := opcode7Of committed.raw == 0x73
      match committed.rd.filter (· ≠ 0) with
      | some rd =>
          if isCsr then
            some { e with world := world, diffInit := true, diffCpu := ⟨gpr.set rd committed.result, ir.dnpc⟩ }
          else if committed.result ≠ ir.result then none
          else some { e with world := world, diffInit := true, diffCpu := ⟨gpr, ir.dnpc⟩ }
      | none => some { e with world := world, diffInit := true, diffCpu := ⟨gpr, ir.dnpc⟩ }
  else some e

/-! ## Stages -/

def stageWB (e : Inorder σ β) : Option (Inorder σ β) :=
  let wb := e.pipe.reg .wb
  if wb.valid then
    (difftestStep vm cfg wb.ir e).map fun e =>
      { e with
        cpu := ⟨irWriteback wb.ir e.cpu.gpr, wb.ir.dnpc⟩
        stats := { e.stats with insts := e.stats.insts + 1 }
        pipe := e.pipe.kill .wb }.emit (.retire wb.ir)
  else some e

/-- An access of the memory stage is logged; other instructions pass through it. -/
def accessed (e : Inorder σ β) (ir : IRInst) : Inorder σ β :=
  if ir.itype = .load ∨ ir.itype = .store then e.emit (.access ir) else e

/-- A load that missed the first level freezes the pipeline once the cycle is over. -/
def missed (e : Inorder σ β) (ir : IRInst) (lat : Nat) : Inorder σ β :=
  if lat > 1 ∧ ir.itype = .load then
    { e with
      pipe := { e.pipe with memStallRem := lat - 1 }
      stats := { e.stats with stallCacheMiss := e.stats.stallCacheMiss + (lat - 1) } }
  else e

def stageMEM (e : Inorder σ β) : Option (Inorder σ β) :=
  let mem := e.pipe.reg .mem
  if mem.valid then
    (irMemAccessLat vm mem.ir e.world).map fun (ir, lat, world) =>
      ({ e with world := world, pipe := e.pipe.set .mem { mem with ir := ir } }.accessed ir).missed ir lat
  else some e

/-- The predictor learns of a control transfer, and a wrong fetch is redirected. -/
def resolved (e : Inorder σ β) (ir : IRInst) : Inorder σ β :=
  if cfg.bpred.enabled then
    let e := if controlOpcode ir.raw then { e with bpred := cfg.bpred.update e.bpred ir } else e
    if ir.dnpc ≠ ir.bpPredictedPc then { e with pipe := e.pipe.redirect ir.dnpc } else e
  else if ir.dnpc ≠ ir.snpc then
    { e with
      pipe := e.pipe.redirect ir.dnpc
      stats := { e.stats with stallControl := e.stats.stallControl + 1 } }
  else e

def stageEX (e : Inorder σ β) : Option (Inorder σ β) :=
  let ex := e.pipe.reg .ex
  if ex.valid then
    (irExecute (vm.perf e.world) ex.ir e.world.sys).map fun (ir, sys) =>
      ({ e with pipe := e.pipe.set .ex { ex with ir := ir } }.setSys (if ir.fault then sys.abort else sys)).resolved cfg ir
  else some e

/-- The execute stage holds a load whose result the decoded instruction needs. -/
def loadUse (ex : PipeReg) (ir : IRInst) : Bool :=
  ex.valid && decide (ex.ir.itype = .load) &&
    (ex.ir.rd.filter (· ≠ 0)).any fun rd => decide (ir.rs1 = some rd ∨ ir.rs2 = some rd)

/-- The operands after the register file has been read again and, unless the stage stalls, results have been
forwarded from the memory and then the execute stage. The flag is `g_pipe_stalled`. -/
def stageID (e : Inorder σ β) : Inorder σ β × Bool :=
  let id := e.pipe.reg .id
  if id.valid then
    let ir := id.ir.reread fun r => some (e.cpu.gpr.get r)
    if loadUse (e.pipe.reg .ex) ir then
      ({ e with
        pipe := e.pipe.set .id { id with ir := ir }
        stats := { e.stats with stallLoadUse := e.stats.stallLoadUse + 1 } }, true)
    else
      let ir := ir.reread (e.pipe.reg .mem).forwards
      let ir := if (e.pipe.reg .ex).ir.itype ≠ .load then ir.reread (e.pipe.reg .ex).forwards else ir
      ({ e with pipe := e.pipe.set .id { id with ir := ir } }, false)
  else (e, false)

/-- The prediction for the instruction `raw` fetched at `pc`: taken, the next fetch and the predictor after it. -/
def predict (bpred : β) (pc : Word) (raw : Raw) : Bool × Word × β :=
  if cfg.bpred.enabled && controlOpcode raw then
    let (r, bpred) := cfg.bpred.predict bpred pc raw
    (r.taken, if r.taken && r.btbHit then r.target else pc + 4, bpred)
  else (false, pc + 4, bpred)

def stageIF (stalled : Bool) (e : Inorder σ β) : Option (Inorder σ β) :=
  if stalled then some e
  else
    let pc := e.pipe.fetchPc
    (vm.ifetch e.world pc 4).map fun (word, world) =>
      let raw := word.setWidth 32
      let (taken, next, bpred) := predict cfg e.bpred pc raw
      let ir := (irDecode e.cpu.gpr raw pc (pc + 4) (e.pipe.reg .wb).ir).annotate taken next
      { e with world := world, bpred := bpred, pipe := e.pipe.fetch ir next }

/-! ## Cycles -/

/-- The five stages, last one first, and the rotation. -/
def stages (e : Inorder σ β) : Option (Inorder σ β) := do
  let e ← stageWB vm cfg e
  let e ← stageMEM vm e
  let e ← stageEX vm cfg e
  let (e, stalled) := stageID e
  let e ← stageIF vm cfg stalled e
  some { e with pipe := e.pipe.rotate stalled }

/-- A cycle of the freeze after a cache miss. -/
def frozen (e : Inorder σ β) : Inorder σ β := { e with pipe := { e.pipe with memStallRem := e.pipe.memStallRem - 1 } }

/-- The cycle counters advance. -/
def tick (e : Inorder σ β) : Inorder σ β :=
  { e with stats := { e.stats with cycles := e.stats.cycles + 1 } }.setSys
    { e.world.sys with simCycles := e.world.sys.simCycles + 1 }

/-- `g_sim_instret = pipe_stats.insts`. -/
def syncInstret (e : Inorder σ β) : Inorder σ β :=
  e.setSys { e.world.sys with simInstret := BitVec.ofNat 64 e.stats.insts }

/-- `pipeline_cycle`. -/
def pipelineCycle (e : Inorder σ β) : Option (Inorder σ β) :=
  if e.pipe.memStallRem > 0 then some e.frozen.tick else (stages vm cfg e).map fun e => e.tick.syncInstret

/-- `pipeline_cycle_core`, between loading and saving the context of the core. -/
def pipelineCycleCore (e : Inorder σ β) : Option (Inorder σ β) :=
  (if e.pipe.memStallRem > 0 then some e.frozen else stages vm cfg e).map fun e => e.tick.syncInstret

/-- Repeated `pipeline_cycle`. -/
def run : Nat → Inorder σ β → Option (Inorder σ β)
  | 0, e => some e
  | n + 1, e => (pipelineCycle vm cfg e).bind (run n)

end Inorder

/-- No prediction, no differential testing. -/
def PipeConfig.plain : PipeConfig Unit := ⟨false, .off, .zero⟩

end Sustemu
