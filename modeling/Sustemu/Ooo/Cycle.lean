import Sustemu.Ooo.Engine

/-!
# Front end and cycle

Renaming allocates a reorder-buffer entry, a physical register and a
reservation station; decoding moves a fetch group on; fetching follows the
predictor. `cycle` is `ooo_cycle`, and `run` repeats it.
-/

set_option autoImplicit false

namespace Sustemu

open Lib

namespace OOOState

/-! ## Rename -/

/-- Execution unit of an instruction word. -/
def classify (raw : Raw) : EU :=
  if opcode7Of raw = 0x03 ∨ opcode7Of raw = 0x23 then .lsu
  else if (opcode7Of raw = 0x33 ∨ opcode7Of raw = 0x3b) ∧ funct7Of raw = 1 then .mul
  else .int

/-- Readiness, value and tag of a source operand. An absent register takes the
decoded operand, `x0` is zero, and any other register is read through the map. -/
def sourceOperand (o : OOOState) (source : Option Reg) (decoded : Word) : Bool × Word × PReg :=
  match source with
  | none => (true, decoded, 0)
  | some r =>
      if r = 0 then (true, 0, 0)
      else
        let tag := o.rat r
        if (o.prf tag).ready then (true, (o.prf tag).value, tag) else (false, 0, tag)

/-- Physical registers of the destination: the new one, the old one, and the state after allocation. -/
def renameDest (o : OOOState) (rd : Option Reg) : Option PReg × Option PReg × OOOState :=
  match rd with
  | none => (none, none, o)
  | some a =>
      if a = 0 then (some 0, some 0, o)
      else
        let old := o.rat a
        let (p, o) := o.freelistPop
        (some p, some old, { o with rat := setAt o.rat a p }.setPrf p ⟨0, false⟩)

/-- The lowest free reservation station. -/
def freeStation (o : OOOState) : Option RsIdx := (List.finRange 16).find? o.rsFreeMask

/-- Rename one instruction. A missing station is undefined. -/
def renameInst (o : OOOState) (ir : IRInst) (seq : Nat) : Option OOOState :=
  let robIdx := o.robTail
  let src1 := o.sourceOperand ir.rs1 ir.src1Val
  let src2 := o.sourceOperand ir.rs2 ir.src2Val
  let o := { o with
    robTail := o.robTail + 1
    robCount := o.robCount + 1
    unreadyStoreCount := if opcode7Of ir.raw = 0x23 then o.unreadyStoreCount + 1 else o.unreadyStoreCount }
  let (physRd, oldPhys, o) := o.renameDest ir.rd
  let o := o.setRob robIdx
    { ir := ir, archRd := ir.rd, physRd := physRd, oldPhys := oldPhys, storeData := 0, ready := false, valid := true,
      seq := seq, ratAfter := o.rat }
  o.freeStation.map fun slot =>
    let o := { o with
      rsFreeMask := setAt o.rsFreeMask slot false
      rs := setAt o.rs slot
        { valid := true, physRd := physRd, robIdx := robIdx,
          src1Ready := src1.1, src1Val := src1.2.1, src1Ptag := src1.2.2,
          src2Ready := src2.1, src2Val := src2.2.1, src2Ptag := src2.2.2,
          euType := classify ir.raw } }
    o.rsMaskUpdate slot

end OOOState

namespace Engine

variable {σ β : Type} (vm : VMem σ) (cfg : OooConfig β)

/-- Why the rename loop stops before slot `n`, as an update of the statistics. -/
def renameStall (o : OOOState) (n : Fin 2) (ir : IRInst) (rsUsed : Nat) : Option (OOOStats → OOOStats) :=
  if ir.serializing ∧ (o.robCount > 0 ∨ n > 0) then
    some fun stats => if n = 0 then { stats with serializingStalls := stats.serializingStalls + 1 } else stats
  else if o.robCount ≥ robSize then some fun stats => { stats with robFullStalls := stats.robFullStalls + 1 }
  else if rsUsed ≥ rsSize then some fun stats => { stats with rsFullStalls := stats.rsFullStalls + 1 }
  else if (ir.rd.filter (· ≠ 0)).isSome ∧ o.freelist.count = 0 then
    some fun stats => { stats with robFullStalls := stats.robFullStalls + 1 }
  else none

/-- Rename the instruction of slot `n` and empty the slot. -/
def renameSlot (e : Engine σ β) (n : Fin 2) : Option (Engine σ β) :=
  let reg := e.ooo.latchIdRn n
  (e.ooo.renameInst reg.ir e.nextSeq).map fun o =>
    { e with
      ooo := { o with latchIdRn := setAt o.latchIdRn n { reg with valid := false } }
      nextSeq := e.nextSeq + 1
      log := e.log ++ if (reg.ir.rd.filter (· ≠ 0)).isSome then [.pop e.ooo.freelist.count] else [] }

/-- The rename loop over the remaining slots. -/
def renameLoop : List (Fin 2) → Nat → Engine σ β → Option (Engine σ β)
  | [], _, e => some e
  | n :: rest, rsUsed, e =>
      if !(e.ooo.latchIdRn n).valid then some e
      else
        match renameStall e.ooo n (e.ooo.latchIdRn n).ir rsUsed with
        | some count => some { e with stats := count e.stats }
        | none => (e.renameSlot n).bind (renameLoop rest (rsUsed + 1))

/-- Shift slot 1 to slot 0 once slot 0 is consumed. -/
def compact (o : OOOState) : OOOState :=
  if !(o.latchIdRn 0).valid && (o.latchIdRn 1).valid then
    { o with latchIdRn := fun s => if s = 0 then o.latchIdRn 1 else { o.latchIdRn 1 with valid := false } }
  else o

/-- Occupied reservation stations, by the free mask. -/
def rsUsed (o : OOOState) : Nat := rsSize - ((List.finRange 16).filter o.rsFreeMask).length

/-- `ooo_stage_rn`. -/
def stageRn (e : Engine σ β) : Option (Engine σ β) :=
  if !(e.ooo.latchIdRn 0).valid then some e
  else (renameLoop [0, 1] (rsUsed e.ooo) e).map fun e => { e with ooo := compact e.ooo }

/-! ## Decode and fetch -/

/-- `ooo_stage_id`. -/
def stageId (e : Engine σ β) : Engine σ β :=
  let o := e.ooo
  if !(o.latchIfId 0).valid || (o.latchIdRn 0).valid then e
  else
    { e with ooo := { o with
      latchIdRn := o.latchIfId
      latchIfId := fun s => { o.latchIfId s with valid := false } } }

/-- `pc & 0xffffffff`. -/
def truncPc (pc : Word) : Word := pc &&& 0xffffffff

def setFetched (e : Engine σ β) (s : Fin 2) (ir : IRInst) (fetchPc : Word) : Engine σ β :=
  { e with ooo := { e.ooo with latchIfId := setAt e.ooo.latchIfId s ⟨ir, true⟩, fetchPc := fetchPc } }

/-- Fetch one instruction into slot `s`; the flag says whether the group goes on. -/
def fetchSlot (e : Engine σ β) (s : Fin 2) : Option (Engine σ β × Bool) :=
  let pc := truncPc e.ooo.fetchPc
  if !inDram pc then some ({ e with ooo := { e.ooo with fetchPc := pc + 4 } }, false)
  else
    (vm.ifetch e.world pc 4).map fun (word, world) =>
      let raw := word.setWidth 32
      let e := { e with world := world }
      let ir := irDecode e.cpu.gpr raw pc (pc + 4) (e.ooo.latchIfId s).ir
      let ir := { ir with bpPredictTaken := false, bpPredictedPc := pc + 4 }
      let op5 := opcodeOf raw
      if cfg.bpred.enabled && (op5 == 0x18 || op5 == 0x1b || op5 == 0x19) then
        let ir := { ir with rasTopSnap := cfg.bpred.rasTop e.bpred, rasCntSnap := cfg.bpred.rasCount e.bpred }
        let (r, bpred) := cfg.bpred.predict e.bpred pc raw
        let e := { e with bpred := bpred }
        let redirect := r.taken && r.btbHit
        let ir := { ir with bpPredictTaken := r.taken, bpPredictedPc := if redirect then r.target else pc + 4 }
        if redirect then (e.setFetched s ir r.target, false) else (e.setFetched s ir (pc + 4), true)
      else (e.setFetched s ir (pc + 4), true)

/-- The fetch loop over the remaining slots. -/
def fetchLoop : List (Fin 2) → Engine σ β → Option (Engine σ β)
  | [], e => some e
  | s :: rest, e => do
      let (e, goesOn) ← e.fetchSlot vm cfg s
      if goesOn then fetchLoop rest e else some e

/-- `ooo_stage_if`. -/
def stageIf (e : Engine σ β) : Option (Engine σ β) :=
  if (e.ooo.latchIfId 0).valid then some e else fetchLoop vm cfg [0, 1] e

/-! ## Cycle -/

/-- The cycle counters. -/
def tick (e : Engine σ β) : Engine σ β :=
  { e with
    stats := { e.stats with cycles := e.stats.cycles + 1 }
    world := { e.world with sys := { e.world.sys with
      simCycles := e.world.sys.simCycles + 1
      simInstret := BitVec.ofNat 64 e.stats.insts } } }

/-- `ooo_cycle`. -/
def cycle (e : Engine σ β) : Option (Engine σ β) := do
  let e ← e.drainStoreBuf vm cfg
  let e ← e.stageCommit vm cfg
  let e := { e with ooo := e.ooo.mshrTick }
  let e ← e.unitInt vm cfg
  let e ← e.unitMul vm
  let e ← e.unitLsu vm
  let e := { e with ooo := e.ooo.stageIs }
  let e ← e.stageRn
  let e := e.stageId
  let e ← e.stageIf vm cfg
  some e.tick

/-- `k` calls of `ooo_cycle`. -/
def run : Nat → Engine σ β → Option (Engine σ β)
  | 0, e => some e
  | k + 1, e => (e.cycle vm cfg).bind (run k)

end Engine

end Sustemu
