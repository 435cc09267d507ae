import Sustemu.Ooo.State

/-!
# The stages of the out-of-order engine

One `ooo_cycle` runs the stages in reverse pipeline order. `none` stands for a
failed assertion, a panic or an undefined operation, which end the process.
The engine keeps a log of what it did: registers allocated, instructions
committed, loads that read their value, and stores that left the store buffer.
-/

set_option autoImplicit false

namespace Sustemu

open Lib

structure BPredResult where
  taken : Bool
  target : Word
  btbHit : Bool

/-- The branch predictor as the engine uses it. -/
structure BPred (β : Type) where
  enabled : Bool
  init : β → β
  predict : β → Word → Raw → BPredResult × β
  update : β → IRInst → β
  rasTop : β → Nat
  rasCount : β → Nat
  rasRestore : β → Nat → Nat → β

structure OooConfig (β : Type) where
  numCores : Nat
  difftestEn : Bool
  traceEn : Bool
  logging : Bool
  bpred : BPred β
  /-- Contents of the uninitialised record of `difftest_step`. -/
  stackIr : IRInst

/-- What an engine did. A fill records the state in which `lsu_do_fill` was reached, a pop the length
of the free list when `freelist_pop` was called. -/
inductive Event (σ : Type) where
  | pop (count : Nat)
  | commit (entry : ROBEntry) (value : Word)
  | fill (before : OOOState) (world : World σ) (slot : RobIdx) (value : Word)
  | drain (entry : StoreBufEntry)
  | logLine (pc : Word) (raw : Raw)
  | mismatch (entry : ROBEntry)

structure Engine (σ β : Type) where
  ooo : OOOState
  stats : OOOStats
  cpu : CPUState
  world : World σ
  bpred : β
  difftestRef : CPUState
  difftestActive : Bool
  tcIr : List IRInst
  nextSeq : Nat
  log : List (Event σ)

/-- Committed map and free list once an entry commits. -/
def OOOState.commitRename (o : OOOState) (entry : ROBEntry) : OOOState :=
  match entry.pending with
  | some r =>
      (({ o with rrat := setAt o.rrat r.target r.fresh } : OOOState).clearReady r.previous).freelistPush
        r.previous
  | none => o

/-- The head slot is emptied and the head moves on. -/
def OOOState.retireHead (o : OOOState) : OOOState :=
  { o.setRob o.robHead { o.rob o.robHead with valid := false } with
    robHead := o.robHead + 1
    robCount := o.robCount - 1 }

namespace Engine

variable {σ β : Type} (vm : VMem σ) (cfg : OooConfig β)

def emit (e : Engine σ β) (event : Event σ) : Engine σ β := { e with log := e.log ++ [event] }

def setSys (e : Engine σ β) (sys : Sys) : Engine σ β := { e with world := { e.world with sys := sys } }

/-- `ooo_init`. -/
def init (cpu : CPUState) (world : World σ) (bpred : β) : Engine σ β where
  ooo := oooInit cpu
  stats := .zero
  cpu := cpu
  world := world
  bpred := cfg.bpred.init bpred
  difftestRef := cpu
  difftestActive := decide (cfg.numCores = 1) && cfg.difftestEn
  tcIr := []
  nextSeq := 0
  log := []

/-! ## Store buffer -/

/-- `ooo_drain_store_buf`. -/
def drainStoreBuf (e : Engine σ β) : Option (Engine σ β) :=
  let o := e.ooo
  if o.sbufCount = 0 then some e
  else if cfg.numCores > 1 ∧ o.sbufDrainTick > 0 then
    some { e with ooo := { o with sbufDrainTick := o.sbufDrainTick - 1 } }
  else
    let entry := o.sbuf o.sbufHead
    let tick := if cfg.numCores > 1 then levelToLat 1 - 1 else o.sbufDrainTick
    (vm.write e.world entry.addr entry.width entry.data).map fun world =>
      ({ e with
        world := world
        ooo := { o with
          sbufDrainTick := tick
          sbuf := setAt o.sbuf o.sbufHead { entry with valid := false }
          sbufHead := o.sbufHead + 1
          sbufCount := o.sbufCount - 1 } } : Engine σ β).emit (.drain entry)

/-! ## Differential testing -/

/-- `difftest_step`: stores are left to the engine's own commit path. -/
def difftestStep (e : Engine σ β) : Option (Engine σ β) := do
  let ref := e.difftestRef
  let (raw, w) ← vm.read e.world ref.pc 4
  let ir := irDecode e.cpu.gpr (raw.setWidth 32) ref.pc (ref.pc + 4) cfg.stackIr
  let ir := match ir.rs1 with
    | some r => { ir with src1Val := ref.gpr.get r }
    | none => ir
  let ir := match ir.rs2 with
    | some r => { ir with src2Val := ref.gpr.get r }
    | none => ir
  let (ir, sys) ← irExecute (vm.perf w) ir w.sys
  let w := { w with sys := sys }
  let (ir, w) ← if ir.itype = .load then irMemAccess vm ir w else some (ir, w)
  some { e with world := w, difftestRef := ⟨irWriteback ir ref.gpr, ir.dnpc⟩ }

/-- A buffered store with the load's address and width. -/
def sbufCovers (o : OOOState) (ir : IRInst) : Bool :=
  (window o.sbufHead o.sbufCount).any fun i =>
    (o.sbuf i).valid && (o.sbuf i).addr == ir.memAddr && (o.sbuf i).width == ir.memWidth

def syncRef (e : Engine σ β) (index : Reg) (value : Word) : Engine σ β :=
  { e with difftestRef := { e.difftestRef with gpr := e.difftestRef.gpr.set index value } }

/-- `difftest_check`. -/
def difftestCheck (e : Engine σ β) (entry : ROBEntry) : Option (Engine σ β) := do
  let e ← e.difftestStep vm cfg
  let skip := match entry.ir.itype with
    | .csr | .system | .fence | .store => true
    | _ => false
  match skip, entry.dest with
  | true, some a => some (e.syncRef a (e.cpu.gpr.get a))
  | true, none => some e
  | false, dest =>
      match (if entry.ir.itype = .load then dest else none) with
      | some a =>
          let oooVal := e.cpu.gpr.get a
          let refVal := e.difftestRef.gpr.get a
          if mmioBase ≤ entry.ir.memAddr then some (e.syncRef a oooVal)
          else if oooVal ≠ refVal ∧ !sbufCovers e.ooo entry.ir then
            some ({ e with cpu := { e.cpu with gpr := e.cpu.gpr.set a refVal } }.emit (.mismatch entry))
          else some (e.syncRef a oooVal)
      | none =>
          if (List.finRange 32).all fun i => e.cpu.gpr.get i == e.difftestRef.gpr.get i then some e
          else some ({ e with difftestRef := e.cpu }.emit (.mismatch entry))

/-! ## Commit -/

/-- The per-cycle trace and the log line of a commit attempt. -/
def commitTrace (e : Engine σ β) (ir : IRInst) : Engine σ β :=
  let e := if cfg.traceEn then { e with tcIr := e.tcIr ++ [ir] } else e
  if cfg.logging then e.emit (.logLine ir.pc ir.raw) else e

/-- A cacheable store enters the store buffer; any other takes effect at once. -/
def commitStore (e : Engine σ β) (entry : ROBEntry) : Option (Engine σ β) :=
  let o := e.ooo
  if entry.ir.itype = .store then
    if inDram entry.ir.memAddr then
      some { e with ooo := { o with
        sbuf := setAt o.sbuf o.sbufTail
          ⟨entry.ir.memAddr, entry.storeData, entry.ir.memWidth, true, entry.seq⟩
        sbufTail := o.sbufTail + 1
        sbufCount := o.sbufCount + 1 } }
    else
      (vm.write e.world entry.ir.memAddr entry.ir.memWidth entry.storeData).map fun world =>
        { e with world := world }
  else some e

/-- The value a commit writes to its destination. -/
def commitValue (o : OOOState) (entry : ROBEntry) : Word :=
  match entry.physRd with
  | some p => (o.prf p).value
  | none => 0

/-- Architectural register and program counter, committed map and free list. -/
def commitRegs (e : Engine σ β) (entry : ROBEntry) : Engine σ β :=
  let gpr := match entry.pending with
    | some r => e.cpu.gpr.set r.target (e.ooo.prf r.fresh).value
    | none => e.cpu.gpr
  { e with cpu := ⟨gpr, entry.ir.dnpc⟩, ooo := e.ooo.commitRename entry }

def retire (e : Engine σ β) : Engine σ β :=
  { e with ooo := e.ooo.retireHead, stats := { e.stats with insts := e.stats.insts + 1 } }

/-- One turn of the commit loop, and whether it goes on. -/
def commitOne (e : Engine σ β) : Option (Engine σ β × Bool) :=
  let o := e.ooo
  let entry := o.rob o.robHead
  if o.robCount = 0 ∨ !entry.valid ∨ !entry.ready then some (e, false)
  else
    let e := e.commitTrace cfg entry.ir
    if entry.ir.itype = .fence ∧ o.sbufCount > 0 then some (e, false)
    else if entry.ir.fault then none
    else if entry.ir.itype = .store ∧ inDram entry.ir.memAddr ∧ o.sbufCount ≥ storeBufSize then some (e, false)
    else do
      let e ← e.commitStore vm entry
      let e := (e.commitRegs entry).emit (.commit entry (commitValue e.ooo entry))
      let e ← if e.difftestActive then e.difftestCheck vm cfg entry else some e
      some (e.retire, true)

def commitLoop : Nat → Engine σ β → Option (Engine σ β)
  | 0, e => some e
  | turns + 1, e => do
      let (e, goesOn) ← e.commitOne vm cfg
      if goesOn then commitLoop turns e else some e

/-- `ooo_stage_commit`. -/
def stageCommit (e : Engine σ β) : Option (Engine σ β) := commitLoop vm cfg commitWidth { e with tcIr := [] }

end Engine

/-! ## Functional units -/

namespace OOOState

/-- Result and ready bit of an instruction executed by an INT or MUL unit. -/
def finishExec (o : OOOState) (i : RobIdx) (physRd : Option PReg) (ir : IRInst) : OOOState :=
  let o := o.setRob i { o.rob i with ir := ir }
  let o := match physRd with
    | some p =>
        let o := o.setPrf p ⟨ir.result, true⟩
        if p ≠ 0 then o.cdbBroadcast p else o
    | none => o
  o.setRob i { o.rob i with ready := true }

end OOOState

/-- `STLF_TRY`: a store that contains the load replaces the value read so far. -/
def stlfTry (sa : Word) (sw : Nat) (sd : Word) (ir : IRInst) (out : Word) : Word :=
  if sa ≤ ir.memAddr ∧ ir.memAddr + BitVec.ofNat 64 ir.memWidth ≤ sa + BitVec.ofNat 64 sw then
    extend ir.memSign ir.memWidth (sd >>> ((ir.memAddr - sa).toNat * 8))
  else out

namespace OOOState

/-- The store-buffer scan, oldest entry first. -/
def forwardSbuf (o : OOOState) (ir : IRInst) (out : Word) : Word :=
  (window o.sbufHead o.sbufCount).foldl (fun out i =>
    let entry := o.sbuf i
    if entry.valid then stlfTry entry.addr entry.width entry.data ir out else out) out

/-- The scan of older ready stores in the reorder buffer. -/
def forwardRob (o : OOOState) (i : RobIdx) (ir : IRInst) (out : Word) : Word :=
  (o.olderSlots i).foldl (fun out j =>
    let entry := o.rob j
    if entry.valid && entry.ready && opcode7Of entry.ir.raw == 0x23 then
      stlfTry entry.ir.memAddr entry.ir.memWidth entry.storeData ir out
    else out) out

end OOOState

namespace Engine

variable {σ β : Type} (vm : VMem σ) (cfg : OooConfig β)

/-- The misprediction check of a control-flow instruction. -/
def resolveBranch (e : Engine σ β) (i : RobIdx) (ir : IRInst) : Engine σ β :=
  let e := { e with bpred := cfg.bpred.update e.bpred ir }
  let predicted := if ir.bpPredictedPc ≠ 0 then ir.bpPredictedPc else ir.snpc
  if ir.dnpc ≠ predicted then
    if !inDram ir.dnpc then
      { e with ooo := e.ooo.setRob i { e.ooo.rob i with ir := { (e.ooo.rob i).ir with fault := true } } }
    else
      { e with
        bpred := cfg.bpred.rasRestore e.bpred ir.rasTopSnap ir.rasCntSnap
        ooo := { e.ooo.flushAfter i with fetchPc := ir.dnpc }
        stats := { e.stats with mispredFlushes := e.stats.mispredFlushes + 1 } }
  else e

def isControl (ir : IRInst) : Bool := ir.itype == .branch || ir.itype == .jal || ir.itype == .jalr

/-- The record of a slot's instruction with its forwarded operands. -/
def operands (o : OOOState) (l : OOOLatch) : IRInst :=
  { (o.rob l.robIdx).ir with src1Val := l.src1Val, src2Val := l.src2Val }

/-- One slot of `ooo_unit_int`. -/
def intSlot (e : Engine σ β) (s : Fin 2) : Option (Engine σ β) :=
  let l := e.ooo.latch .int s
  if !l.valid then some e
  else
    let e := { e with ooo := e.ooo.dropLatch .int s }
    if !(e.ooo.rob l.robIdx).valid then some e
    else
      (irExecute (vm.perf e.world) (operands e.ooo l) e.world.sys).map fun (ir, sys) =>
        let e := { e.setSys sys with ooo := e.ooo.finishExec l.robIdx l.physRd ir }
        if isControl ir then e.resolveBranch cfg l.robIdx ir else e

/-- Latency of the MUL unit for an instruction word. -/
def mulLat (raw : Raw) : Nat :=
  if (opcode7Of raw = 0x33 ∨ opcode7Of raw = 0x3b) ∧ funct7Of raw = 1 then
    if funct3Of raw < 4 then 3 else 20
  else 1

/-- The last visit of a MUL slot: execute and write the result. -/
def mulFinish (e : Engine σ β) (s : Fin 2) : Option (Engine σ β) :=
  let l := e.ooo.latch .mul s
  let e := { e with ooo := e.ooo.dropLatch .mul s }
  if !(e.ooo.rob l.robIdx).valid then some e
  else
    (irExecute (vm.perf e.world) (operands e.ooo l) e.world.sys).map fun (ir, sys) =>
      { e.setSys sys with ooo := e.ooo.finishExec l.robIdx l.physRd ir }

/-- One slot of `ooo_unit_mul`. -/
def mulSlot (e : Engine σ β) (s : Fin 2) : Option (Engine σ β) :=
  let l := e.ooo.latch .mul s
  if !l.valid then some e
  else if l.cyclesRem = -1 then
    let lat := mulLat (e.ooo.rob l.robIdx).ir.raw
    let e := { e with ooo := e.ooo.setLatch .mul s { l with cyclesRem := (lat : Int) - 1 } }
    if lat > 1 then some e else e.mulFinish vm s
  else if l.cyclesRem > 0 then
    if !(e.ooo.rob l.robIdx).valid then some { e with ooo := e.ooo.dropLatch .mul s }
    else some { e with ooo := e.ooo.setLatch .mul s { l with cyclesRem := l.cyclesRem - 1 } }
  else e.mulFinish vm s

/-- `lsu_do_fill` for an address that is neither memory nor a device. -/
def lsuFault (o : OOOState) (s : Fin 2) : OOOState :=
  let l := o.latch .lsu s
  let entry := o.rob l.robIdx
  let o := o.setRob l.robIdx { entry with ir := { entry.ir with fault := true, result := 0 } }
  let o := match l.physRd with
    | some p => if p ≠ 0 then (o.setPrf p ⟨0, true⟩).cdbBroadcast p else o
    | none => o
  (o.setRob l.robIdx { o.rob l.robIdx with ready := true }).dropLatch .lsu s

/-- The end of `lsu_do_fill`: release the MSHR, write the result and free the slot. -/
def lsuFinish (o : OOOState) (s : Fin 2) (mshr : Option MshrIdx) (result : Word) : OOOState :=
  let l := o.latch .lsu s
  let o := match mshr with
    | some m => o.mshrRelease s m
    | none => o
  let o := match l.physRd with
    | some p => (o.setPrf p ⟨result, true⟩).cdbBroadcast p
    | none => o
  let entry := o.rob l.robIdx
  (o.setRob l.robIdx { entry with ir := { entry.ir with result := result }, ready := true }).dropLatch .lsu s

/-- `lsu_do_fill`. -/
def lsuFill (e : Engine σ β) (s : Fin 2) (mshr : Option MshrIdx) : Option (Engine σ β) :=
  let o := e.ooo
  let i := (o.latch .lsu s).robIdx
  let ir := (o.rob i).ir
  let pa := ir.memAddr &&& 0xffffffff
  if !inDram pa && decide (pa < mmioBase) then some { e with ooo := lsuFault o s }
  else
    (vm.fillAndRead e.world ir.memAddr ir.memWidth).map fun (raw, world) =>
      let result := o.forwardRob i ir (o.forwardSbuf ir (extend ir.memSign ir.memWidth raw))
      ({ e with world := world, ooo := lsuFinish o s mshr result } : Engine σ β).emit
        (.fill o e.world i result)

/-- A slot whose instruction was flushed: only a miss in flight matters. -/
def lsuFlushed (e : Engine σ β) (s : Fin 2) : Option (Engine σ β) :=
  let o := e.ooo
  match (o.latch .lsu s).mshrIdx with
  | none => some { e with ooo := o.dropLatch .lsu s }
  | some m =>
      if (o.mshr m).cyclesRem > 0 then some e
      else
        (vm.fillAndRead e.world (o.mshr m).lineAddr 8).map fun (_, world) =>
          { e with world := world, ooo := (o.mshrRelease s m).dropLatch .lsu s }

/-- The first visit of an LSU slot once the address is known. -/
def lsuStart (e : Engine σ β) (s : Fin 2) : Option (Engine σ β) :=
  let o := e.ooo
  let l := o.latch .lsu s
  let entry := o.rob l.robIdx
  let ir := entry.ir
  if ir.itype = .store then
    let o := o.setRob l.robIdx { entry with storeData := ir.src2Val, ready := true }
    some { e with ooo := { o with unreadyStoreCount := o.unreadyStoreCount - 1 }.dropLatch .lsu s }
  else if mmioBase ≤ ir.memAddr then
    if l.robIdx ≠ o.robHead then some { e with ooo := o.setLatch .lsu s { l with cyclesRem := -2 } }
    else e.lsuFill vm s none
  else
    let (level, world) := vm.probeLevel e.world ir.memAddr
    let e := { e with world := world }
    let lat := levelToLat level
    if lat = 1 then e.lsuFill vm s none
    else
      match o.mshrFindOrAlloc (ir.memAddr &&& ~~~(63 : Word)) lat with
      | (none, o) => some { e with ooo := o }
      | (some m, o) => some { e with ooo := o.setLatch .lsu s { l with mshrIdx := some m, cyclesRem := 0 } }

/-- One slot of `ooo_unit_lsu`. -/
def lsuSlot (e : Engine σ β) (s : Fin 2) : Option (Engine σ β) :=
  let o := e.ooo
  let l := o.latch .lsu s
  if !l.valid then some e
  else if !(o.rob l.robIdx).valid || l.flushed then e.lsuFlushed vm s
  else
    match l.mshrIdx with
    | none =>
        if l.cyclesRem = -1 then do
          let (ir, sys) ← irExecute (vm.perf e.world) (operands o l) e.world.sys
          let e := { e.setSys sys with ooo := o.setRob l.robIdx { o.rob l.robIdx with ir := ir } }
          e.lsuStart vm s
        else if l.cyclesRem = -2 ∧ l.robIdx ≠ o.robHead then some e
        else e.lsuFill vm s none
    | some m => if (o.mshr m).cyclesRem > 0 then some e else e.lsuFill vm s (some m)

def unit (step : Engine σ β → Fin 2 → Option (Engine σ β)) (slots : List (Fin 2)) (e : Engine σ β) :
    Option (Engine σ β) := slots.foldlM step e

/-- `ooo_unit_int`. -/
def unitInt (e : Engine σ β) : Option (Engine σ β) := e.unit (intSlot vm cfg) EU.int.slots

/-- `ooo_unit_mul`. -/
def unitMul (e : Engine σ β) : Option (Engine σ β) := e.unit (mulSlot vm) EU.mul.slots

/-- `ooo_unit_lsu`. -/
def unitLsu (e : Engine σ β) : Option (Engine σ β) := e.unit (lsuSlot vm) EU.lsu.slots

end Engine

end Sustemu
