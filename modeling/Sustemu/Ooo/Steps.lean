import Sustemu.Ooo.Preservation
import Sustemu.Isa.Decoded

/-!
# The engine as a step relation

A cycle is a sequence of small steps. `BackStep` has one constructor for each
thing the back end can do to one instruction, `FrontStep` for each movement of
the front end. Constructors carry the guards the code has established when it
takes the step, so that an invariant is proved once per constructor.
-/

set_option autoImplicit false

namespace Sustemu

open Lib

/-- The program counter that fetch went on with. -/
def IRInst.predicted (ir : IRInst) : Word := if ir.bpPredictedPc ≠ 0 then ir.bpPredictedPc else ir.snpc

namespace OOOState

/-- A slot holds an instruction that was not flushed. -/
structure Live (o : OOOState) (eu : EU) (s : Fin 2) : Prop where
  valid : (o.latch eu s).valid = true
  kept : (o.latch eu s).flushed = false

/-- The entry that a slot works for. -/
def slotEntry (o : OOOState) (eu : EU) (s : Fin 2) : ROBEntry := o.rob (o.latch eu s).robIdx

/-- The access in an LSU slot has its address: executing it again changes nothing. -/
structure Computed (o : OOOState) (s : Fin 2) : Prop where
  src1 : (o.slotEntry .lsu s).ir.src1Val = (o.latch .lsu s).src1Val
  src2 : (o.slotEntry .lsu s).ir.src2Val = (o.latch .lsu s).src2Val
  done : ∃ run, (o.slotEntry .lsu s).ir.execFn.pure = some run ∧
    run (o.slotEntry .lsu s).ir = (o.slotEntry .lsu s).ir

/-- A load in an LSU slot has its address. -/
structure Addressed (o : OOOState) (s : Fin 2) : Prop where
  live : o.Live .lsu s
  computed : o.Computed s
  load : (o.slotEntry .lsu s).ir.itype ≠ .store

/-- What holds in every state within a cycle. -/
structure Ok (o : OOOState) : Prop where
  inv : o.Inv
  decoded : ∀ i, (o.rob i).valid = true → (o.rob i).ir.Decoded ∧ (o.rob i).archRd = rdOf (o.rob i).ir.raw
  idRn : ∀ s, (o.latchIdRn s).valid = true → (o.latchIdRn s).ir.Fetched
  ifId : ∀ s, (o.latchIfId s).valid = true → (o.latchIfId s).ir.Fetched
  inOrder : (o.latchIfId 1).valid = true → (o.latchIfId 0).valid = true
  missed : ∀ s m, o.Live .lsu s → (o.latch .lsu s).mshrIdx = some m →
    o.Addressed s ∧ (o.slotEntry .lsu s).ir.memAddr < mmioBase
  delayed : ∀ s, o.Live .lsu s → (o.latch .lsu s).mshrIdx = none → (o.latch .lsu s).cyclesRem ≠ -1 →
    o.Addressed s ∧ (o.latch .lsu s).cyclesRem = -2

/-- Between cycles the decoded group starts in slot 0. -/
def Tidy (o : OOOState) : Prop := (o.latchIdRn 1).valid = true → (o.latchIdRn 0).valid = true

/-- The value a load reads: memory, then the store buffer, then older stores of the reorder buffer. -/
def loadValue (o : OOOState) (s : Fin 2) (raw : Word) : Word :=
  let i := (o.latch .lsu s).robIdx
  let ir := (o.rob i).ir
  o.forwardRob i ir (o.forwardSbuf ir (extend ir.memSign ir.memWidth raw))

/-- The oldest buffered store has left. -/
def popStore (o : OOOState) (tick : Nat) : OOOState :=
  { o with
    sbufDrainTick := tick
    sbuf := setAt o.sbuf o.sbufHead { o.sbuf o.sbufHead with valid := false }
    sbufHead := o.sbufHead + 1
    sbufCount := o.sbufCount - 1 }

end OOOState

namespace Engine

variable {σ β : Type} (vm : VMem σ) (cfg : OooConfig β)

/-- The head entry has committed, before any comparison with the reference. -/
def committed (e : Engine σ β) : Engine σ β :=
  let entry := e.ooo.rob e.ooo.robHead
  (e.commitRegs entry).emit (.commit entry (commitValue e.ooo entry))

/-- One thing the back end does. -/
inductive BackStep (e : Engine σ β) : Engine σ β → Prop where
  | note {stats : OOOStats} {tcIr : List IRInst} {lines : List (Event σ)}
      (quiet : ∀ event ∈ lines, ∃ pc raw, event = .logLine pc raw) :
      BackStep e { e with stats := stats, tcIr := tcIr, log := e.log ++ lines }
  | timer (mshr : MshrIdx → MSHREntry) (tick : Nat) (lines : ∀ m, (mshr m).lineAddr = (e.ooo.mshr m).lineAddr) :
      BackStep e { e with ooo := { e.ooo with mshr := mshr, sbufDrainTick := tick } }
  | drain {world : World σ} {tick : Nat} (waiting : e.ooo.sbufCount ≠ 0)
      (written : vm.write e.world (e.ooo.sbuf e.ooo.sbufHead).addr (e.ooo.sbuf e.ooo.sbufHead).width
        (e.ooo.sbuf e.ooo.sbufHead).data = some world) :
      BackStep e (({ e with world := world, ooo := e.ooo.popStore tick } : Engine σ β).emit
        (.drain (e.ooo.sbuf e.ooo.sbufHead)))
  | commit {e₁ e₂ : Engine σ β} (live : e.ooo.robCount ≠ 0) (ready : (e.ooo.rob e.ooo.robHead).ready = true)
      (ordered : (e.ooo.rob e.ooo.robHead).ir.itype = .fence → e.ooo.sbufCount = 0)
      (sound : (e.ooo.rob e.ooo.robHead).ir.fault = false)
      (room : (e.ooo.rob e.ooo.robHead).ir.itype = .store → inDram (e.ooo.rob e.ooo.robHead).ir.memAddr = true →
        e.ooo.sbufCount < storeBufSize)
      (stored : e.commitStore vm (e.ooo.rob e.ooo.robHead) = some e₁)
      (checked : (if e₁.difftestActive then e₁.committed.difftestCheck vm cfg (e.ooo.rob e.ooo.robHead)
        else some e₁.committed) = some e₂) :
      BackStep e e₂.retire
  | exec {eu : EU} {s : Fin 2} {ir : IRInst} {sys : Sys} {o : OOOState} (bpred : β) (fault : Bool) (unit : eu ≠ .lsu)
      (live : e.ooo.Live eu s)
      (run : irExecute (vm.perf e.world) (operands e.ooo (e.ooo.latch eu s)) e.world.sys = some (ir, sys))
      (completes : e.ooo.Completes eu s
        { e.ooo.slotEntry eu s with ir := { ir with fault := ir.fault || fault }, ready := true } ir.result o)
      (faulted : fault = true → inDram ir.dnpc = false)
      (resolved : eu = .int → isControl ir = true → ir.dnpc = ir.predicted ∨ fault = true) :
      BackStep e { e.setSys sys with ooo := o, bpred := bpred }
  | redirect {s : Fin 2} {ir : IRInst} {sys : Sys} {o : OOOState} {bpred : β} {stats : OOOStats}
      (live : e.ooo.Live .int s)
      (run : irExecute (vm.perf e.world) (operands e.ooo (e.ooo.latch .int s)) e.world.sys = some (ir, sys))
      (completes : e.ooo.Completes .int s { e.ooo.slotEntry .int s with ir := ir, ready := true } ir.result o)
      (control : isControl ir = true) (wrong : ir.dnpc ≠ ir.predicted) (target : inDram ir.dnpc = true) :
      BackStep e { e.setSys sys with
        ooo := { o.flushAfter (e.ooo.latch .int s).robIdx with fetchPc := ir.dnpc }
        bpred := bpred
        stats := stats }
  | count {s : Fin 2} {cycles : Int} (live : e.ooo.Live .mul s) :
      BackStep e { e with ooo := e.ooo.setLatch .mul s { e.ooo.latch .mul s with cyclesRem := cycles } }
  | discard {s : Fin 2} {world : World σ} (mshr : MshrIdx → MSHREntry) (valid : (e.ooo.latch .lsu s).valid = true)
      (flushed : (e.ooo.latch .lsu s).flushed = true) (lines : ∀ m, (mshr m).lineAddr = (e.ooo.mshr m).lineAddr)
      (filled : world = e.world ∨ ∃ m value, (e.ooo.latch .lsu s).mshrIdx = some m ∧
        vm.fillAndRead e.world (e.ooo.mshr m).lineAddr 8 = some (value, world)) :
      BackStep e { e with world := world, ooo := ({ e.ooo with mshr := mshr } : OOOState).dropLatch .lsu s }
  | address {s : Fin 2} {run : IRInst → IRInst} (live : e.ooo.Live .lsu s)
      (first : (e.ooo.latch .lsu s).mshrIdx = none ∧ (e.ooo.latch .lsu s).cyclesRem = -1)
      (executor : (e.ooo.slotEntry .lsu s).ir.execFn.pure = some run) :
      BackStep e { e with
        ooo := e.ooo.setRob (e.ooo.latch .lsu s).robIdx
          { e.ooo.slotEntry .lsu s with ir := run (operands e.ooo (e.ooo.latch .lsu s)) } }
  | storeDone {s : Fin 2} {o : OOOState} (live : e.ooo.Live .lsu s) (computed : e.ooo.Computed s)
      (store : (e.ooo.slotEntry .lsu s).ir.itype = .store)
      (completes : e.ooo.Completes .lsu s
        { e.ooo.slotEntry .lsu s with storeData := (e.ooo.slotEntry .lsu s).ir.src2Val, ready := true } 0 o) :
      BackStep e { e with ooo := o }
  | delay {s : Fin 2} (addressed : e.ooo.Addressed s) (none : (e.ooo.latch .lsu s).mshrIdx = none) :
      BackStep e { e with ooo := e.ooo.setLatch .lsu s { e.ooo.latch .lsu s with cyclesRem := -2 } }
  | probe {addr : Word} : BackStep e { e with world := (vm.probeLevel e.world addr).2 }
  | miss {s : Fin 2} {m : MshrIdx} {mshr : MshrIdx → MSHREntry} {w : World σ} (addressed : e.ooo.Addressed s)
      (cached : (e.ooo.slotEntry .lsu s).ir.memAddr < mmioBase)
      (missed : (vm.probeLevel w (e.ooo.slotEntry .lsu s).ir.memAddr).1 ≠ 0)
      (line : (mshr m).lineAddr = (e.ooo.slotEntry .lsu s).ir.memAddr &&& ~~~(63 : Word))
      (lines : ∀ m', m' ≠ m → (mshr m').lineAddr = (e.ooo.mshr m').lineAddr) :
      BackStep e { e with
        ooo := ({ e.ooo with mshr := mshr } : OOOState).setLatch .lsu s
          { e.ooo.latch .lsu s with mshrIdx := some m, cyclesRem := 0 } }
  | loadFault {s : Fin 2} {o : OOOState} (addressed : e.ooo.Addressed s)
      (outside : inDram ((e.ooo.slotEntry .lsu s).ir.memAddr &&& 0xffffffff) = false ∧
        (e.ooo.slotEntry .lsu s).ir.memAddr &&& 0xffffffff < mmioBase)
      (completes : e.ooo.Completes .lsu s { e.ooo.slotEntry .lsu s with
        ir := { (e.ooo.slotEntry .lsu s).ir with fault := true, result := 0 }
        ready := true } 0 o) :
      BackStep e { e with ooo := o }
  | fill {s : Fin 2} {o : OOOState} {raw : Word} {world : World σ} (addressed : e.ooo.Addressed s)
      (device : mmioBase ≤ (e.ooo.slotEntry .lsu s).ir.memAddr → (e.ooo.latch .lsu s).robIdx = e.ooo.robHead)
      (mapped : inDram ((e.ooo.slotEntry .lsu s).ir.memAddr &&& 0xffffffff) = true ∨
        mmioBase ≤ (e.ooo.slotEntry .lsu s).ir.memAddr &&& 0xffffffff)
      (read : vm.fillAndRead e.world (e.ooo.slotEntry .lsu s).ir.memAddr (e.ooo.slotEntry .lsu s).ir.memWidth =
        some (raw, world))
      (completes : e.ooo.Completes .lsu s { e.ooo.slotEntry .lsu s with
        ir := { (e.ooo.slotEntry .lsu s).ir with result := e.ooo.loadValue s raw }
        ready := true } (e.ooo.loadValue s raw) o) :
      BackStep e (({ e with world := world, ooo := o } : Engine σ β).emit
        (.fill e.ooo e.world (e.ooo.latch .lsu s).robIdx (e.ooo.loadValue s raw)))
  | issue {eu : EU} {s : Fin 2} {k : RsIdx} (empty : (e.ooo.latch eu s).valid = false)
      (chosen : e.ooo.selectIssue eu = some k) : BackStep e { e with ooo := e.ooo.latchFromRs eu s k }

/-- One movement of the front end. -/
inductive FrontStep (e : Engine σ β) : Engine σ β → Prop where
  | note {stats : OOOStats} : FrontStep e { e with stats := stats }
  | rename {n : Fin 2} {slot : RsIdx} {o : OOOState} (valid : (e.ooo.latchIdRn n).valid = true)
      (inOrder : n = 1 → (e.ooo.latchIdRn 0).valid = false)
      (alone : (e.ooo.latchIdRn n).ir.serializing = true → e.ooo.robCount = 0 ∧ n = 0)
      (room : e.ooo.robCount < 32)
      (names : ((e.ooo.latchIdRn n).ir.rd.filter (· ≠ 0)).isSome = true → e.ooo.freelist.count ≠ 0)
      (renames : e.ooo.Renames (e.ooo.latchIdRn n).ir e.nextSeq slot o) :
      FrontStep e { e with
        ooo := { o with latchIdRn := setAt e.ooo.latchIdRn n { e.ooo.latchIdRn n with valid := false } }
        nextSeq := e.nextSeq + 1
        log := e.log ++ if ((e.ooo.latchIdRn n).ir.rd.filter (· ≠ 0)).isSome then [.pop e.ooo.freelist.count] else [] }
  | compact (consumed : (e.ooo.latchIdRn 0).valid = false) (left : (e.ooo.latchIdRn 1).valid = true) :
      FrontStep e { e with ooo := { e.ooo with
        latchIdRn := fun s => if s = 0 then e.ooo.latchIdRn 1 else { e.ooo.latchIdRn 1 with valid := false } } }
  | decode (group : (e.ooo.latchIfId 0).valid = true) (consumed : ∀ s, (e.ooo.latchIdRn s).valid = false) :
      FrontStep e { e with ooo := { e.ooo with
        latchIdRn := e.ooo.latchIfId
        latchIfId := fun s => { e.ooo.latchIfId s with valid := false } } }
  | fetch {s : Fin 2} {word : Word} {world : World σ} {bpred : β} {taken : Bool} {next : Word} {rasTop rasCnt : Nat}
      (inOrder : ∀ t, (e.ooo.latchIfId t).valid = decide (t < s))
      (mapped : inDram (truncPc e.ooo.fetchPc) = true)
      (read : vm.ifetch e.world (truncPc e.ooo.fetchPc) 4 = some (word, world))
      (answer : next = truncPc e.ooo.fetchPc + 4 ∨ ∃ state,
        let r := (cfg.bpred.predict state (truncPc e.ooo.fetchPc) (word.setWidth 32)).1
        controlOpcode (word.setWidth 32) = true ∧ r.taken = true ∧ r.btbHit = true ∧ next = r.target) :
      FrontStep e (({ e with world := world, bpred := bpred } : Engine σ β).setFetched s
        { irDecode e.cpu.gpr (word.setWidth 32) (truncPc e.ooo.fetchPc) (truncPc e.ooo.fetchPc + 4)
            (e.ooo.latchIfId s).ir with
          bpPredictTaken := taken
          bpPredictedPc := next
          rasTopSnap := rasTop
          rasCntSnap := rasCnt } next)
  | skip (unmapped : inDram (truncPc e.ooo.fetchPc) = false) :
      FrontStep e { e with ooo := { e.ooo with fetchPc := truncPc e.ooo.fetchPc + 4 } }
  | tick : FrontStep e e.tick

/-- A step of either end. -/
def Step (e e' : Engine σ β) : Prop := e.BackStep vm cfg e' ∨ e.FrontStep vm cfg e'

end Engine

end Sustemu
