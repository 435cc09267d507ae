import Sustemu.Isa.Inst
import Sustemu.Lib.Update

/-!
# Control and status registers

The globals of `csr.c` and `state.c`: the CSR file, the privilege level, the
PMP registers, the simulation state and the cycle counters. `none` stands for
a failed assertion, which ends the process.
-/

set_option autoImplicit false

namespace Sustemu

inductive NemuState where
  | running | stop | abort | «end» | quit
  deriving DecidableEq, Repr

structure CSR where
  mstatus : Word
  mepc : Word
  mcause : Word
  mtvec : Word
  mideleg : Word
  medeleg : Word
  mie : Word
  mip : Word
  mtval : Word
  mscratch : Word
  sstatus : Word
  sepc : Word
  scause : Word
  sie : Word
  sip : Word
  stval : Word
  stvec : Word
  satp : Word
  sscratch : Word
  deriving DecidableEq

def CSR.zero : CSR where
  mstatus := 0
  mepc := 0
  mcause := 0
  mtvec := 0
  mideleg := 0
  medeleg := 0
  mie := 0
  mip := 0
  mtval := 0
  mscratch := 0
  sstatus := 0
  sepc := 0
  scause := 0
  sie := 0
  sip := 0
  stval := 0
  stvec := 0
  satp := 0
  sscratch := 0

/-- Cache statistics that `read_csr` exposes as counters. -/
structure Perf where
  l1dHits : Word
  l1dMisses : Word
  l1iHits : Word
  l1iMisses : Word
  l2Hits : Word
  l2Misses : Word

/-- The counters of caches that were never used. -/
def Perf.zero : Perf := ⟨0, 0, 0, 0, 0, 0⟩

structure Sys where
  csr : CSR
  privLevel : Word
  pmpcfg : Fin 8 → BitVec 8
  pmpaddr : Fin 8 → Word
  pmpOnCount : BitVec 8
  state : NemuState
  isBad : Bool
  simCycles : Word
  simInstret : Word
  hartid : Fin 2
  /-- Set when an array is written outside its bounds. -/
  outOfBounds : Bool

/-- The globals as `main` leaves them before the first instruction. -/
def Sys.init : Sys where
  csr := .zero
  privLevel := 3
  pmpcfg := fun _ => 0
  pmpaddr := fun _ => 0
  pmpOnCount := 0
  state := .running
  isBad := false
  simCycles := 0
  simInstret := 0
  hartid := 0
  outOfBounds := false

/-- `set_bad(); state = NEMU_ABORT`. -/
def Sys.abort (sys : Sys) : Sys := { sys with isBad := true, state := .abort }

def userLevel : Word := 0

def supervisorLevel : Word := 1

def machineLevel : Word := 3

/-- `csr_table`: number, lowest privilege level, readable, writable. -/
def csrTable : List (Nat × Word × Bool × Bool) :=
  [ (0x300, machineLevel, true, true),
    (0x301, machineLevel, true, false),
    (0x302, machineLevel, true, true),
    (0x303, machineLevel, true, true),
    (0x304, machineLevel, true, true),
    (0x305, machineLevel, true, true),
    (0x306, machineLevel, true, false),
    (0x340, machineLevel, true, true),
    (0x341, machineLevel, true, true),
    (0x342, machineLevel, true, true),
    (0x343, machineLevel, true, true),
    (0x344, machineLevel, true, true),
    (0xf14, machineLevel, true, false),
    (0x100, supervisorLevel, true, true),
    (0x104, supervisorLevel, true, true),
    (0x105, supervisorLevel, true, true),
    (0x140, supervisorLevel, true, true),
    (0x141, supervisorLevel, true, true),
    (0x142, supervisorLevel, true, true),
    (0x143, supervisorLevel, true, true),
    (0x144, supervisorLevel, true, true),
    (0x180, supervisorLevel, true, true),
    (0x3a0, machineLevel, true, true),
    (0x3a2, machineLevel, true, true),
    (0x3a4, machineLevel, true, true),
    (0x3a6, machineLevel, true, true),
    (0x3a8, machineLevel, true, true),
    (0x3aa, machineLevel, true, true),
    (0x3ac, machineLevel, true, true),
    (0x3ae, machineLevel, true, true),
    (0x3b0, machineLevel, true, true),
    (0x3b2, machineLevel, true, true),
    (0x3b4, machineLevel, true, true),
    (0x3b6, machineLevel, true, true),
    (0x3b8, machineLevel, true, true),
    (0xc00, userLevel, true, false),
    (0xc02, userLevel, true, false),
    (0xc03, userLevel, true, false),
    (0xc04, userLevel, true, false),
    (0xc05, userLevel, true, false),
    (0xc06, userLevel, true, false),
    (0xc07, userLevel, true, false),
    (0xc08, userLevel, true, false) ]

/-- `priv_check`: a number outside the table is refused without ending the run. -/
def privCheck (sys : Sys) (no : Nat) (isWrite : Bool) : Bool × Sys :=
  match csrTable.find? (fun row => row.1 == no) with
  | none => (false, sys)
  | some (_, level, readable, writable) =>
      if sys.privLevel < level then (false, sys.abort)
      else if !isWrite && !readable then (false, sys.abort)
      else if isWrite && !writable then (false, sys.abort)
      else (true, sys)

def mretPrivTransfer (sys : Sys) : Sys :=
  let privLevel := (sys.csr.mstatus &&& 0x18000) >>> 11
  let cleared := sys.csr.mstatus &&& ~~~(0x18000 : Word)
  let restored := ((cleared &&& 0x80) >>> 4) ||| (cleared &&& ~~~(0x80 : Word))
  { sys with privLevel := privLevel, csr := { sys.csr with mstatus := restored ||| 0x80 } }

def exceptionPrivTransfer (sys : Sys) : Sys :=
  let previous := (sys.csr.mstatus &&& ~~~(0x18000 : Word)) ||| (sys.privLevel <<< 11)
  let saved := ((previous &&& 0x08) <<< 4) ||| (previous &&& ~~~(0x80 : Word))
  { sys with privLevel := machineLevel, csr := { sys.csr with mstatus := saved &&& ~~~(0x08 : Word) } }

/-- `raise_intr`: the trap vector and the updated CSR file. -/
def raiseIntr (sys : Sys) (no epc : Word) : Word × Sys :=
  (sys.csr.mtvec, { sys with csr := { sys.csr with mepc := epc, mcause := no } })

/-- The address-matching field of a PMP configuration byte. -/
def pmpField (cfg : BitVec 8) : BitVec 8 := cfg &&& 0x18

def isPmpOn (sys : Sys) (id : Fin 8) : Bool := pmpField (sys.pmpcfg id) != 0

/-- `set_pmpcfg`; the array has eight elements. -/
def setPmpcfg (sys : Sys) (id : Nat) (data : BitVec 8) : Sys :=
  if inside : id < 8 then
    let index : Fin 8 := ⟨id, inside⟩
    let updated := { sys with pmpcfg := Lib.setAt sys.pmpcfg index data }
    if isPmpOn sys index && !isPmpOn updated index then
      { updated with pmpOnCount := sys.pmpOnCount - 1 }
    else if !isPmpOn sys index && isPmpOn updated index then
      { updated with pmpOnCount := sys.pmpOnCount + 1 }
    else updated
  else { sys with outOfBounds := true }

/-- The eight `set_pmpcfg` calls of one configuration register. -/
def setPmpcfgs (sys : Sys) (base : Nat) (data : Word) : Sys :=
  (List.range 8).foldl (fun current i => setPmpcfg current (i + base) ((data >>> (i * 8)).setWidth 8)) sys

def setCsr (sys : Sys) (no : Nat) (data : Word) : Sys :=
  let checked := privCheck sys no true
  if checked.1 then
    let sys := checked.2
    match no with
    | 0x341 => { sys with csr := { sys.csr with mepc := data } }
    | 0x342 => { sys with csr := { sys.csr with mcause := data } }
    | 0x305 => { sys with csr := { sys.csr with mtvec := data } }
    | 0xf14 => sys
    | 0x343 => { sys with csr := { sys.csr with mtval := data } }
    | 0x344 => { sys with csr := { sys.csr with mip := data } }
    | 0x304 => { sys with csr := { sys.csr with mie := data } }
    | 0x303 => { sys with csr := { sys.csr with mideleg := data } }
    | 0x302 => { sys with csr := { sys.csr with medeleg := data } }
    | 0x340 => { sys with csr := { sys.csr with mscratch := data } }
    | 0x100 => { sys with csr := { sys.csr with sstatus := data } }
    | 0x104 => { sys with csr := { sys.csr with sie := data } }
    | 0x105 => { sys with csr := { sys.csr with stvec := data } }
    | 0x140 => { sys with csr := { sys.csr with sscratch := data } }
    | 0x143 => { sys with csr := { sys.csr with stval := data } }
    | 0x144 => { sys with csr := { sys.csr with sip := data } }
    | 0x180 => { sys with csr := { sys.csr with satp := data } }
    | 0x3a0 => setPmpcfgs sys 0 data
    | 0x3a2 => setPmpcfgs sys 8 data
    | 0x3b0 => { sys with pmpaddr := Lib.setAt sys.pmpaddr 0 data }
    | 0x3b2 => { sys with pmpaddr := Lib.setAt sys.pmpaddr 1 data }
    | 0x3b4 => { sys with pmpaddr := Lib.setAt sys.pmpaddr 2 data }
    | 0x3b6 => { sys with pmpaddr := Lib.setAt sys.pmpaddr 3 data }
    | 0x3b8 => { sys with pmpaddr := Lib.setAt sys.pmpaddr 4 data }
    | _ => sys
  else checked.2

/-- `read_csr`; `none` is its final assertion. -/
def readCsr (perf : Perf) (sys : Sys) (no : Nat) : Option (Word × Sys) :=
  let checked := privCheck sys no false
  if checked.1 then
    let sys := checked.2
    match no with
    | 0x341 => some (sys.csr.mepc, sys)
    | 0x342 => some (sys.csr.mcause, sys)
    | 0x305 => some (sys.csr.mtvec, sys)
    | 0x300 => some (sys.csr.mstatus, sys)
    | 0xf14 => some (BitVec.ofNat 64 sys.hartid.val, sys)
    | 0x343 => some (sys.csr.mtval, sys)
    | 0x344 => some (sys.csr.mip, sys)
    | 0x304 => some (sys.csr.mie, sys)
    | 0x303 => some (sys.csr.mideleg, sys)
    | 0x302 => some (sys.csr.medeleg, sys)
    | 0x301 => some (0x8000000000001100, sys)
    | 0x340 => some (sys.csr.mscratch, sys)
    | 0x100 => some (sys.csr.sstatus, sys)
    | 0x104 => some (sys.csr.sie, sys)
    | 0x105 => some (sys.csr.stvec, sys)
    | 0x140 => some (sys.csr.sscratch, sys)
    | 0x141 => some (sys.csr.sepc, sys)
    | 0x142 => some (sys.csr.scause, sys)
    | 0x143 => some (sys.csr.stval, sys)
    | 0x144 => some (sys.csr.sip, sys)
    | 0x3a0 => some ((List.finRange 8).foldl
        (fun val i => val ||| ((sys.pmpcfg i).setWidth 64 <<< (i.val * 8))) 0, sys)
    | 0x3b0 => some (sys.pmpaddr 0, sys)
    | 0x3b2 => some (sys.pmpaddr 1, sys)
    | 0xc00 => some (sys.simCycles, sys)
    | 0xc02 => some (sys.simInstret, sys)
    | 0xc03 => some (perf.l1dHits, sys)
    | 0xc04 => some (perf.l1dMisses, sys)
    | 0xc05 => some (perf.l1iHits, sys)
    | 0xc06 => some (perf.l1iMisses, sys)
    | 0xc07 => some (perf.l2Hits, sys)
    | 0xc08 => some (perf.l2Misses, sys)
    | _ => none
  else some (0xbadbeef, checked.2)

/-! ## What instructions keep -/

/-- Nothing has happened but, perhaps, the end of the run. -/
def Sys.Reported (sys sys' : Sys) : Prop := sys' = sys ∨ sys' = sys.abort

theorem privCheck_reported (sys : Sys) (no : Nat) (isWrite : Bool) : sys.Reported (privCheck sys no isWrite).2 := by
  unfold privCheck
  split
  · exact .inl rfl
  · split
    · exact .inr rfl
    · split
      · exact .inr rfl
      · split
        · exact .inr rfl
        · exact .inl rfl

theorem readCsr_reported {perf : Perf} {sys sys' : Sys} {no : Nat} {value : Word}
    (read : readCsr perf sys no = some (value, sys')) : sys.Reported sys' := by
  have checked := privCheck_reported sys no false
  unfold readCsr at read
  generalize privCheck sys no false = check at checked read
  simp only at read
  split at read
  · split at read <;> first | (cases read; exact checked) | cases read
  · cases read
    exact checked

/-- A property of the globals that CSR accesses and traps keep. -/
structure Sys.Closed (P : Sys → Prop) : Prop where
  abort : ∀ {sys}, P sys → P sys.abort
  registers : ∀ {sys}, P sys → ∀ csr privLevel pmpaddr,
    P { sys with csr := csr, privLevel := privLevel, pmpaddr := pmpaddr }
  configured : ∀ {sys}, P sys → ∀ id data, P (setPmpcfg sys id data)

namespace Sys.Closed

variable {P : Sys → Prop} (closed : Sys.Closed P) {sys sys' : Sys}

include closed in
theorem reported (reported : sys.Reported sys') (holds : P sys) : P sys' := by
  rcases reported with rfl | rfl
  · exact holds
  · exact closed.abort holds

include closed in
theorem setPmpcfgs (holds : P sys) (base : Nat) (data : Word) : P (setPmpcfgs sys base data) := by
  unfold Sustemu.setPmpcfgs
  induction List.range 8 generalizing sys with
  | nil => exact holds
  | cons i rest ih => exact ih (closed.configured holds (i + base) _)

include closed in
theorem setCsr (holds : P sys) (no : Nat) (data : Word) : P (setCsr sys no data) := by
  have kept := closed.reported (privCheck_reported sys no true) holds
  unfold Sustemu.setCsr
  generalize privCheck sys no true = checked at kept
  simp only
  split
  · split <;> first | exact closed.setPmpcfgs kept _ _ | exact closed.registers kept _ _ _
  · exact kept

include closed in
theorem readCsr {perf : Perf} {no : Nat} {value : Word} (holds : P sys)
    (read : readCsr perf sys no = some (value, sys')) : P sys' := closed.reported (readCsr_reported read) holds

end Sys.Closed

/-- The hart a core runs as and the counters that a cycle advances. -/
def Sys.fixed (sys : Sys) : Fin 2 × Word × Word := (sys.hartid, sys.simCycles, sys.simInstret)

theorem setPmpcfg_fixed (sys : Sys) (id : Nat) (data : BitVec 8) : (setPmpcfg sys id data).fixed = sys.fixed := by
  unfold setPmpcfg
  split
  · simp only
    split
    · rfl
    · split <;> rfl
  · rfl

/-- Only an engine changes them. -/
theorem Sys.closed_fixed (value : Fin 2 × Word × Word) : Sys.Closed fun sys => sys.fixed = value where
  abort := fun holds => holds
  registers := fun holds _ _ _ => holds
  configured := fun holds id data => (setPmpcfg_fixed _ id data).trans holds

theorem setCsr_hartid (sys : Sys) (no : Nat) (data : Word) : (setCsr sys no data).hartid = sys.hartid :=
  congrArg Prod.fst ((Sys.closed_fixed sys.fixed).setCsr rfl no data)

/-! ## Physical memory protection -/

/-- The size loop of a NAPOT entry. A 64-bit mask loses its last bit after 64 shifts. -/
def napotSize : Nat → Word → Word → Word
  | 0, _, size => size
  | fuel + 1, mask, size => if mask.getLsbD 0 then napotSize fuel (mask >>> 1) (size <<< 1) else size

/-- The half-open range `[start, end)` that entry `i` covers; empty when it is off. -/
def pmpRange (sys : Sys) (i : Fin 8) : Word × Word :=
  let field := pmpField (sys.pmpcfg i)
  let addr := sys.pmpaddr i <<< 2
  if field = 0x08 then (if i = 0 then 0 else sys.pmpaddr (i - 1) <<< 2, addr)
  else if field = 0x10 then (addr, addr + 4)
  else if field = 0x18 then
    let size := napotSize 64 (addr ||| 0x3) 1
    let start := addr &&& ~~~(size - 1)
    (start, start + size)
  else (0, 0)

/-- Whether an entry that matches grants the access. -/
def pmpGrants (sys : Sys) (cfg : BitVec 8) (isExecute isWrite : Bool) : Bool :=
  if sys.privLevel = machineLevel ∧ cfg &&& 0x80 = 0 then true
  else
    let r := cfg &&& 0x01 != 0
    let w := cfg &&& 0x02 != 0
    let x := cfg &&& 0x04 != 0
    !((isExecute && !x) || (isWrite && !w) || (!isExecute && !isWrite && !r))

/-- `pmp_check`: the lowest-numbered matching entry decides. -/
def pmpCheck (sys : Sys) (addr : Word) (isExecute isWrite : Bool) : Bool × Sys :=
  if sys.pmpOnCount = 0 ∧ sys.privLevel = machineLevel then (true, sys)
  else
    let matching := (List.finRange 8).find? fun i =>
      pmpField (sys.pmpcfg i) != 0 && decide ((pmpRange sys i).1 ≤ addr) && decide (addr < (pmpRange sys i).2)
    match matching with
    | some i => if pmpGrants sys (sys.pmpcfg i) isExecute isWrite then (true, sys) else (false, sys.abort)
    | none => if sys.privLevel = machineLevel then (true, sys) else (false, sys.abort)

/-- A denied access does nothing but end the run. -/
theorem pmpCheck_sys (sys : Sys) (addr : Word) (isExecute isWrite : Bool) :
    (pmpCheck sys addr isExecute isWrite).2 = if (pmpCheck sys addr isExecute isWrite).1 then sys else sys.abort := by
  unfold pmpCheck
  simp only
  split
  · rfl
  · split
    · split <;> rfl
    · split <;> rfl

theorem pmpCheck_reported (sys : Sys) (addr : Word) (isExecute isWrite : Bool) :
    sys.Reported (pmpCheck sys addr isExecute isWrite).2 := by
  rw [pmpCheck_sys]
  split
  · exact .inl rfl
  · exact .inr rfl

theorem Sys.Reported.fixed {sys sys' : Sys} (reported : sys.Reported sys') : sys'.fixed = sys.fixed := by
  rcases reported with rfl | rfl <;> rfl

theorem pmpCheck_fixed (sys : Sys) (addr : Word) (isExecute isWrite : Bool) :
    (pmpCheck sys addr isExecute isWrite).2.fixed = sys.fixed := (pmpCheck_reported sys addr isExecute isWrite).fixed

theorem pmpCheck_hartid (sys : Sys) (addr : Word) (isExecute isWrite : Bool) :
    (pmpCheck sys addr isExecute isWrite).2.hartid = sys.hartid := congrArg Prod.fst (pmpCheck_fixed ..)

end Sustemu
