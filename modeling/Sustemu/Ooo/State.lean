import Sustemu.Cpu.Functional
import Sustemu.Lib.Window
import Sustemu.Lib.Rename

/-!
# State of the out-of-order engine

The structures of `ooo.h`. Indices into the fixed arrays are `Fin`, an index of
`-1` is `none`, and bit masks are predicates on slots. The latches of the three
kinds of functional unit are one family indexed by the kind. Two fields of a
reorder-buffer entry are history that no code reads: `seq` numbers instructions
in the order they are renamed, and `ratAfter` is the register map right after
the renaming.
-/

set_option autoImplicit false

namespace Sustemu

open Lib

abbrev PReg := Fin 64

abbrev RobIdx := Fin 32

abbrev RsIdx := Fin 16

abbrev SbufIdx := Fin 16

abbrev MshrIdx := Fin 8

/-- `EU_INT`, `EU_MUL`, `EU_LSU`. -/
inductive EU where
  | int | mul | lsu
  deriving DecidableEq, Repr

/-- The slots of a kind of unit: `NUM_INT_UNITS`, `NUM_MUL_UNITS`, `NUM_LSU_UNITS`. -/
def EU.slots : EU → List (Fin 2)
  | .int => [0, 1]
  | .mul => [0]
  | .lsu => [0, 1]

structure PhysReg where
  value : Word
  ready : Bool

structure FreeList where
  regs : Fin 64 → PReg
  head : Fin 64
  tail : Fin 64
  count : Nat

structure ROBEntry where
  ir : IRInst
  archRd : Option Reg
  physRd : Option PReg
  oldPhys : Option PReg
  storeData : Word
  ready : Bool
  valid : Bool
  seq : Nat
  ratAfter : Reg → PReg

namespace ROBEntry

/-- The renamed destination: `arch_rd` when it is neither `-1` nor `x0`. -/
def dest (entry : ROBEntry) : Option Reg := entry.archRd.filter (· ≠ 0)

/-- The rename an entry performed, if it has a destination. -/
def pending (entry : ROBEntry) : Option (Rename Reg PReg) :=
  match entry.dest, entry.physRd, entry.oldPhys with
  | some a, some p, some old => some ⟨a, p, old⟩
  | _, _, _ => none

end ROBEntry

structure RSEntry where
  valid : Bool
  physRd : Option PReg
  robIdx : RobIdx
  src1Ready : Bool
  src1Val : Word
  src1Ptag : PReg
  src2Ready : Bool
  src2Val : Word
  src2Ptag : PReg
  euType : EU

structure MSHREntry where
  valid : Bool
  lineAddr : Word
  cyclesRem : Int

structure OOOLatch where
  robIdx : RobIdx
  physRd : Option PReg
  valid : Bool
  cyclesRem : Int
  mshrIdx : Option MshrIdx
  flushed : Bool
  src1Val : Word
  src2Val : Word

structure OOOStats where
  cycles : Nat
  insts : Nat
  robFullStalls : Nat
  rsFullStalls : Nat
  mispredFlushes : Nat
  serializingStalls : Nat

structure StoreBufEntry where
  addr : Word
  data : Word
  width : Nat
  valid : Bool
  seq : Nat

/-- A front-end latch, shared with the in-order pipeline. -/
structure PipeReg where
  ir : IRInst
  valid : Bool

structure OOOState where
  prf : PReg → PhysReg
  rat : Reg → PReg
  rrat : Reg → PReg
  freelist : FreeList
  rob : RobIdx → ROBEntry
  robHead : RobIdx
  robTail : RobIdx
  robCount : Nat
  rs : RsIdx → RSEntry
  unreadyStoreCount : Int
  rsReadyMask : EU → RsIdx → Bool
  rsFreeMask : RsIdx → Bool
  latchIfId : Fin 2 → PipeReg
  latchIdRn : Fin 2 → PipeReg
  latch : EU → Fin 2 → OOOLatch
  mshr : MshrIdx → MSHREntry
  fetchPc : Word
  sbuf : SbufIdx → StoreBufEntry
  sbufHead : SbufIdx
  sbufTail : SbufIdx
  sbufCount : Nat
  sbufDrainTick : Nat

def robSize : Nat := 32

def rsSize : Nat := 16

def storeBufSize : Nat := 16

def commitWidth : Nat := 2

/-! ## Records of zeros -/

def ROBEntry.zero : ROBEntry := ⟨.zero, some 0, some 0, some 0, 0, false, false, 0, fun _ => 0⟩

def RSEntry.zero : RSEntry := ⟨false, some 0, 0, false, 0, 0, false, 0, 0, .int⟩

def OOOLatch.zero : OOOLatch := ⟨0, some 0, false, 0, some 0, false, 0, 0⟩

def MSHREntry.zero : MSHREntry := ⟨false, 0, 0⟩

def StoreBufEntry.zero : StoreBufEntry := ⟨0, 0, 0, false, 0⟩

def PipeReg.zero : PipeReg := ⟨.zero, false⟩

def OOOStats.zero : OOOStats := ⟨0, 0, 0, 0, 0, 0⟩

/-- `ooo_init`: `p0` to `p31` hold the registers and `p32` to `p63` are free. -/
def oooInit (cpu : CPUState) : OOOState where
  prf := fun p => ⟨if h : p.val < 32 then cpu.gpr.get ⟨p.val, h⟩ else 0, true⟩
  rat := fun a => Fin.castLE (by decide) a
  rrat := fun a => Fin.castLE (by decide) a
  freelist := { regs := fun i => if i.val < 32 then i + 32 else 0, head := 0, tail := 32, count := 32 }
  rob := fun _ => .zero
  robHead := 0
  robTail := 0
  robCount := 0
  rs := fun _ => .zero
  unreadyStoreCount := 0
  rsReadyMask := fun _ _ => false
  rsFreeMask := fun _ => true
  latchIfId := fun _ => .zero
  latchIdRn := fun _ => .zero
  latch := fun _ _ => .zero
  mshr := fun _ => .zero
  fetchPc := cpu.pc
  sbuf := fun _ => .zero
  sbufHead := 0
  sbufTail := 0
  sbufCount := 0
  sbufDrainTick := 0

namespace OOOState

/-! ## Free list -/

def freelistPop (o : OOOState) : PReg × OOOState :=
  (o.freelist.regs o.freelist.head,
    { o with freelist := { o.freelist with head := o.freelist.head + 1, count := o.freelist.count - 1 } })

def freelistPush (o : OOOState) (reg : PReg) : OOOState :=
  { o with freelist := { o.freelist with
      regs := setAt o.freelist.regs o.freelist.tail reg
      tail := o.freelist.tail + 1
      count := o.freelist.count + 1 } }

/-! ## Field updates -/

def setPrf (o : OOOState) (p : PReg) (reg : PhysReg) : OOOState := { o with prf := setAt o.prf p reg }

/-- `prf[p].ready = 0`. -/
def clearReady (o : OOOState) (p : PReg) : OOOState := o.setPrf p { o.prf p with ready := false }

def setRob (o : OOOState) (i : RobIdx) (entry : ROBEntry) : OOOState := { o with rob := setAt o.rob i entry }

def setLatch (o : OOOState) (eu : EU) (s : Fin 2) (l : OOOLatch) : OOOState :=
  { o with latch := setAt o.latch eu (setAt (o.latch eu) s l) }

/-- `latch[s].valid = 0`. -/
def dropLatch (o : OOOState) (eu : EU) (s : Fin 2) : OOOState := o.setLatch eu s { o.latch eu s with valid := false }

/-! ## Reservation stations -/

def rsMaskUpdate (o : OOOState) (i : RsIdx) : OOOState :=
  let rs := o.rs i
  { o with
    rsReadyMask := setAt o.rsReadyMask rs.euType
      (setAt (o.rsReadyMask rs.euType) i (rs.valid && rs.src1Ready && rs.src2Ready)) }

def rsMaskClear (o : OOOState) (i : RsIdx) (eu : EU) : OOOState :=
  { o with
    rsReadyMask := setAt o.rsReadyMask eu (setAt (o.rsReadyMask eu) i false)
    rsFreeMask := setAt o.rsFreeMask i true }

/-- Strictly newer in the circular buffer. -/
def robNewerThan (o : OOOState) (a b : RobIdx) : Bool := decide ((a - o.robHead).val > (b - o.robHead).val)

end OOOState

/-- A station's reaction to a broadcast, and whether it changed. -/
def RSEntry.wake (rs : RSEntry) (tag : PReg) (value : Word) : RSEntry × Bool :=
  let first := !rs.src1Ready && rs.src1Ptag == tag
  let second := !rs.src2Ready && rs.src2Ptag == tag
  let rs := if first then { rs with src1Val := value, src1Ready := true } else rs
  let rs := if second then { rs with src2Val := value, src2Ready := true } else rs
  (rs, first || second)

namespace OOOState

/-- `cdb_broadcast`. The loop over the occupied stations treats each on its own. -/
def cdbBroadcast (o : OOOState) (tag : PReg) : OOOState :=
  let woken := fun i => (o.rs i).wake tag (o.prf tag).value
  { o with
    rs := fun i => if o.rsFreeMask i then o.rs i else (woken i).1
    rsReadyMask := fun eu i =>
      if !o.rsFreeMask i && (woken i).2 && (woken i).1.src1Ready && (woken i).1.src2Ready
          && (woken i).1.euType == eu then true
      else o.rsReadyMask eu i }

/-! ## Misprediction recovery -/

/-- One turn of the rollback loop: the youngest entry is discarded. -/
def rollbackOne (o : OOOState) : OOOState :=
  let tail := o.robTail - 1
  let o := { o with robTail := tail }
  let entry := o.rob tail
  if entry.valid then
    let o := match entry.pending with
      | some r =>
          (({ o with rat := setAt o.rat r.target r.previous } : OOOState).clearReady r.fresh).freelistPush
            r.fresh
      | none => o
    let o := if !entry.ready && opcode7Of entry.ir.raw == 0x23 then
        { o with unreadyStoreCount := o.unreadyStoreCount - 1 } else o
    { o.setRob tail { entry with valid := false } with robCount := o.robCount - 1 }
  else o

/-- Turns of the rollback loop. -/
def rollback : Nat → OOOState → OOOState
  | 0, o => o
  | turns + 1, o => rollback turns o.rollbackOne

/-- Reservation stations, latches and front end after a flush of everything newer than `b`. -/
def squash (o : OOOState) (b : RobIdx) : OOOState :=
  let goes := fun i => (o.rs i).valid && o.robNewerThan (o.rs i).robIdx b
  let hit := fun eu s => (o.latch eu s).valid && o.robNewerThan (o.latch eu s).robIdx b
  { o with
    rs := fun i => if goes i then { o.rs i with valid := false } else o.rs i
    rsReadyMask := fun eu i => if goes i && (o.rs i).euType == eu then false else o.rsReadyMask eu i
    rsFreeMask := fun i => if goes i then true else o.rsFreeMask i
    latch := fun eu s =>
      let l := o.latch eu s
      if hit eu s then
        -- A miss in flight still has to fill the cache.
        if eu = .lsu ∧ l.mshrIdx.isSome then { l with flushed := true } else { l with valid := false }
      else l
    latchIfId := fun s => { o.latchIfId s with valid := false }
    latchIdRn := fun s => { o.latchIdRn s with valid := false } }

/-- `ooo_flush_after`: the loop walks back until the tail is just behind `b`. -/
def flushAfter (o : OOOState) (b : RobIdx) : OOOState := (rollback (o.robTail - (b + 1)).val o).squash b

/-! ## Miss status holding registers -/

def mshrFindOrAlloc (o : OOOState) (lineAddr : Word) (lat : Nat) : Option MshrIdx × OOOState :=
  match (List.finRange 8).find? fun i => (o.mshr i).valid && (o.mshr i).lineAddr == lineAddr with
  | some i => (some i, o)
  | none =>
      match (List.finRange 8).find? fun i => !(o.mshr i).valid with
      | some i => (some i, { o with mshr := setAt o.mshr i ⟨true, lineAddr, (lat : Int) - 1⟩ })
      | none => (none, o)

def mshrTick (o : OOOState) : OOOState :=
  { o with mshr := fun i =>
      let entry := o.mshr i
      if entry.valid && decide (entry.cyclesRem > 0) then { entry with cyclesRem := entry.cyclesRem - 1 } else entry }

/-- Release an MSHR once no other LSU slot waits on it. -/
def mshrRelease (o : OOOState) (s : Fin 2) (i : MshrIdx) : OOOState :=
  let stillUsed := EU.lsu.slots.any fun t => t != s && (o.latch .lsu t).valid && (o.latch .lsu t).mshrIdx == some i
  if stillUsed then o else { o with mshr := setAt o.mshr i { o.mshr i with valid := false } }

/-! ## Issue -/

/-- `latch_from_rs`: move station `i` into slot `s` of unit `eu`. -/
def latchFromRs (o : OOOState) (eu : EU) (s : Fin 2) (i : RsIdx) : OOOState :=
  let rs := o.rs i
  let o := o.setLatch eu s
    { robIdx := rs.robIdx, physRd := rs.physRd, valid := true, cyclesRem := -1, mshrIdx := none, flushed := false,
      src1Val := rs.src1Val, src2Val := rs.src2Val }
  let o := o.rsMaskClear i rs.euType
  { o with rs := setAt o.rs i { rs with valid := false } }

/-- The slots from the head up to but not including `i`. -/
def olderSlots (o : OOOState) (i : RobIdx) : List RobIdx := window o.robHead (i - o.robHead).val

/-- The scan of older entries that holds a load back. -/
def loadBlocked (o : OOOState) (i : RobIdx) : Bool :=
  (o.olderSlots i).any fun j =>
    let entry := o.rob j
    entry.valid && ((!entry.ready && opcode7Of entry.ir.raw == 0x23)
      || (entry.ir.itype == .fence && decide (o.sbufCount > 0)))

/-- Whether station `i` may issue to unit `eu` now. -/
def issuable (o : OOOState) (eu : EU) (i : RsIdx) : Bool :=
  o.rsReadyMask eu i &&
    !(eu == .lsu && opcode7Of (o.rob (o.rs i).robIdx).ir.raw == 0x03
      && o.loadBlocked (o.rs i).robIdx)

/-- The oldest issuable station of a unit. -/
def selectIssue (o : OOOState) (eu : EU) : Option RsIdx :=
  (List.finRange 16).foldl (fun best i =>
    if o.issuable eu i then
      match best with
      | none => some i
      | some best =>
          if ((o.rs i).robIdx - o.robHead).val < ((o.rs best).robIdx - o.robHead).val then some i else some best
    else best) none

/-- `ISSUE_UNIT` for one slot. -/
def issueSlot (eu : EU) (o : OOOState) (s : Fin 2) : OOOState :=
  if (o.latch eu s).valid then o
  else
    match o.selectIssue eu with
    | none => o
    | some i => o.latchFromRs eu s i

def issueUnit (o : OOOState) (eu : EU) : OOOState := eu.slots.foldl (issueSlot eu) o

/-- `ooo_stage_is`. -/
def stageIs (o : OOOState) : OOOState := ((o.issueUnit .int).issueUnit .mul).issueUnit .lsu

end OOOState

end Sustemu
