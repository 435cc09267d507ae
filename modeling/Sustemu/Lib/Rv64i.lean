import Sustemu.Lib.Bytes
import Sustemu.Lib.Update

/-!
# RV64I

The 64-bit base integer instruction set without fences and system instructions:
syntax, encoding, and what an instruction does to a program counter, registers
and a byte memory. A program is a partial map from addresses to instructions;
a computation is an infinite run of one.
-/

set_option autoImplicit false

namespace Sustemu.Lib.Rv64i

abbrev Word := BitVec 64

abbrev Reg := Fin 32

/-- The register that always reads as zero. -/
abbrev x0 : Reg := ⟨0, by decide⟩

/-! ## Syntax -/

inductive Op where
  | add | sub | sll | slt | sltu | xor | srl | sra | or | and
  deriving DecidableEq, Repr

/-- The operations that take a twelve-bit immediate. -/
inductive OpImm where
  | add | slt | sltu | xor | or | and
  deriving DecidableEq, Repr

inductive Shift where
  | sll | srl | sra
  deriving DecidableEq, Repr

/-- The operations on the low halves of registers. -/
inductive OpW where
  | add | sub | sll | srl | sra
  deriving DecidableEq, Repr

inductive Cond where
  | eq | ne | lt | ge | ltu | geu
  deriving DecidableEq, Repr

inductive Load where
  | lb | lh | lw | ld | lbu | lhu | lwu
  deriving DecidableEq, Repr

inductive Store where
  | sb | sh | sw | sd
  deriving DecidableEq, Repr

/-- Offsets of branches and of `jal` count half-words. -/
inductive Instr where
  | lui (rd : Reg) (imm : BitVec 20)
  | auipc (rd : Reg) (imm : BitVec 20)
  | jal (rd : Reg) (offset : BitVec 20)
  | jalr (rd rs1 : Reg) (offset : BitVec 12)
  | branch (cond : Cond) (rs1 rs2 : Reg) (offset : BitVec 12)
  | load (kind : Load) (rd rs1 : Reg) (offset : BitVec 12)
  | store (kind : Store) (rs1 rs2 : Reg) (offset : BitVec 12)
  | aluImm (op : OpImm) (rd rs1 : Reg) (imm : BitVec 12)
  | shiftImm (op : Shift) (rd rs1 : Reg) (amount : BitVec 6)
  | alu (op : Op) (rd rs1 rs2 : Reg)
  | addiw (rd rs1 : Reg) (imm : BitVec 12)
  | shiftImmW (op : Shift) (rd rs1 : Reg) (amount : BitVec 5)
  | aluW (op : OpW) (rd rs1 rs2 : Reg)
  deriving DecidableEq, Repr

/-! ## Operations -/

def OpImm.op : OpImm → Op
  | add => .add
  | slt => .slt
  | sltu => .sltu
  | xor => .xor
  | or => .or
  | and => .and

def Shift.op : Shift → Op
  | sll => .sll
  | srl => .srl
  | sra => .sra

def OpW.op : OpW → Op
  | add => .add
  | sub => .sub
  | sll => .sll
  | srl => .srl
  | sra => .sra

/-- An operation at any width; shift amounts are taken modulo the width. -/
def Op.eval {width : Nat} (op : Op) (a b : BitVec width) : BitVec width :=
  match op with
  | add => a + b
  | sub => a - b
  | sll => a <<< (b.toNat % width)
  | slt => if a.toInt < b.toInt then 1 else 0
  | sltu => if a.toNat < b.toNat then 1 else 0
  | xor => a ^^^ b
  | srl => a >>> (b.toNat % width)
  | sra => a.sshiftRight (b.toNat % width)
  | or => a ||| b
  | and => a &&& b

/-- An operation on the low halves, with its result extended. -/
def Op.evalW (op : Op) (a b : Word) : Word := (op.eval (a.setWidth 32) (b.setWidth 32)).signExtend 64

def Cond.holds (cond : Cond) (a b : Word) : Bool :=
  match cond with
  | eq => decide (a = b)
  | ne => decide (a ≠ b)
  | lt => decide (a.toInt < b.toInt)
  | ge => decide (b.toInt ≤ a.toInt)
  | ltu => decide (a.toNat < b.toNat)
  | geu => decide (b.toNat ≤ a.toNat)

def Load.width : Load → Nat
  | lb | lbu => 1
  | lh | lhu => 2
  | lw | lwu => 4
  | ld => 8

def Load.signed : Load → Bool
  | lb | lh | lw => true
  | ld | lbu | lhu | lwu => false

def Store.width : Store → Nat
  | sb => 1
  | sh => 2
  | sw => 4
  | sd => 8

/-! ## Execution -/

structure State where
  pc : Word
  regs : Reg → Word
  mem : ByteMem

/-- The value of a register; `x0` is zero whatever is written to it. -/
def State.reg (s : State) (r : Reg) : Word := if r = x0 then 0 else s.regs r

namespace Instr

/-- The program counter after the instruction. -/
def next (i : Instr) (s : State) : Word :=
  match i with
  | jal _ offset => s.pc + (offset ++ 0#1).signExtend 64
  | jalr _ rs1 offset => (s.reg rs1 + offset.signExtend 64) &&& ~~~1
  | branch cond rs1 rs2 offset =>
      if cond.holds (s.reg rs1) (s.reg rs2) then s.pc + (offset ++ 0#1).signExtend 64 else s.pc + 4
  | _ => s.pc + 4

/-- The register the instruction writes, and its new value. -/
def result (i : Instr) (s : State) : Option (Reg × Word) :=
  match i with
  | lui rd imm => some (rd, (imm ++ 0#12).signExtend 64)
  | auipc rd imm => some (rd, s.pc + (imm ++ 0#12).signExtend 64)
  | jal rd _ => some (rd, s.pc + 4)
  | jalr rd _ _ => some (rd, s.pc + 4)
  | branch _ _ _ _ => none
  | load kind rd rs1 offset =>
      some (rd, extend kind.signed kind.width (loadLE s.mem (s.reg rs1 + offset.signExtend 64).toNat kind.width))
  | store _ _ _ _ => none
  | aluImm op rd rs1 imm => some (rd, op.op.eval (s.reg rs1) (imm.signExtend 64))
  | shiftImm op rd rs1 amount => some (rd, op.op.eval (s.reg rs1) (amount.setWidth 64))
  | alu op rd rs1 rs2 => some (rd, op.eval (s.reg rs1) (s.reg rs2))
  | addiw rd rs1 imm => some (rd, Op.add.evalW (s.reg rs1) (imm.signExtend 64))
  | shiftImmW op rd rs1 amount => some (rd, op.op.evalW (s.reg rs1) (amount.setWidth 64))
  | aluW op rd rs1 rs2 => some (rd, op.op.evalW (s.reg rs1) (s.reg rs2))

/-- The address and width of a load. -/
def loads (i : Instr) (s : State) : Option (Word × Nat) :=
  match i with
  | load kind _ rs1 offset => some (s.reg rs1 + offset.signExtend 64, kind.width)
  | _ => none

/-- The address, width and data of a store. -/
def stores (i : Instr) (s : State) : Option (Word × Nat × Word) :=
  match i with
  | store kind rs1 rs2 offset => some (s.reg rs1 + offset.signExtend 64, kind.width, s.reg rs2)
  | _ => none

def exec (i : Instr) (s : State) : State where
  pc := i.next s
  regs :=
    match i.result s with
    | some (rd, value) => setAt s.regs rd value
    | none => s.regs
  mem :=
    match i.stores s with
    | some (addr, width, data) => storeLE s.mem addr.toNat width data
    | none => s.mem

end Instr

/-! ## Encoding -/

/-- A register number as a field of an instruction word. -/
def regBits (r : Reg) : BitVec 5 := ⟨r⟩

def rType (opcode : BitVec 7) (funct7 : BitVec 7) (rs2 rs1 : Reg) (funct3 : BitVec 3) (rd : Reg) : BitVec 32 :=
  funct7 ++ regBits rs2 ++ regBits rs1 ++ funct3 ++ regBits rd ++ opcode

def iType (opcode : BitVec 7) (imm : BitVec 12) (rs1 : Reg) (funct3 : BitVec 3) (rd : Reg) : BitVec 32 :=
  imm ++ regBits rs1 ++ funct3 ++ regBits rd ++ opcode

def sType (opcode : BitVec 7) (imm : BitVec 12) (rs2 rs1 : Reg) (funct3 : BitVec 3) : BitVec 32 :=
  imm.extractLsb' 5 7 ++ regBits rs2 ++ regBits rs1 ++ funct3 ++ imm.extractLsb' 0 5 ++ opcode

def bType (opcode : BitVec 7) (offset : BitVec 12) (rs2 rs1 : Reg) (funct3 : BitVec 3) : BitVec 32 :=
  offset.extractLsb' 11 1 ++ offset.extractLsb' 4 6 ++ regBits rs2 ++ regBits rs1 ++ funct3 ++
    offset.extractLsb' 0 4 ++ offset.extractLsb' 10 1 ++ opcode

def uType (opcode : BitVec 7) (imm : BitVec 20) (rd : Reg) : BitVec 32 := imm ++ regBits rd ++ opcode

def jType (opcode : BitVec 7) (offset : BitVec 20) (rd : Reg) : BitVec 32 :=
  uType opcode
    (offset.extractLsb' 19 1 ++ offset.extractLsb' 0 10 ++ offset.extractLsb' 10 1 ++ offset.extractLsb' 11 8) rd

def Op.funct3 : Op → BitVec 3
  | add | sub => 0
  | sll => 1
  | slt => 2
  | sltu => 3
  | xor => 4
  | srl | sra => 5
  | or => 6
  | and => 7

/-- The bit of `funct7` that tells `sub` from `add` and `sra` from `srl`. -/
def Op.alternative : Op → BitVec 7
  | sub | sra => 0x20
  | _ => 0

def Cond.funct3 : Cond → BitVec 3
  | eq => 0
  | ne => 1
  | lt => 4
  | ge => 5
  | ltu => 6
  | geu => 7

def Load.funct3 : Load → BitVec 3
  | lb => 0
  | lh => 1
  | lw => 2
  | ld => 3
  | lbu => 4
  | lhu => 5
  | lwu => 6

def Store.funct3 : Store → BitVec 3
  | sb => 0
  | sh => 1
  | sw => 2
  | sd => 3

def Instr.encode : Instr → BitVec 32
  | lui rd imm => uType 0x37 imm rd
  | auipc rd imm => uType 0x17 imm rd
  | jal rd offset => jType 0x6f offset rd
  | jalr rd rs1 offset => iType 0x67 offset rs1 0 rd
  | branch cond rs1 rs2 offset => bType 0x63 offset rs2 rs1 cond.funct3
  | load kind rd rs1 offset => iType 0x03 offset rs1 kind.funct3 rd
  | store kind rs1 rs2 offset => sType 0x23 offset rs2 rs1 kind.funct3
  | aluImm op rd rs1 imm => iType 0x13 imm rs1 op.op.funct3 rd
  | shiftImm op rd rs1 amount => iType 0x13 (op.op.alternative.extractLsb' 1 6 ++ amount) rs1 op.op.funct3 rd
  | alu op rd rs1 rs2 => rType 0x33 op.alternative rs2 rs1 op.funct3 rd
  | addiw rd rs1 imm => iType 0x1b imm rs1 0 rd
  | shiftImmW op rd rs1 amount => iType 0x1b (op.op.alternative ++ amount) rs1 op.op.funct3 rd
  | aluW op rd rs1 rs2 => rType 0x3b op.op.alternative rs2 rs1 op.op.funct3 rd

/-! ## Programs -/

/-- Instructions by address. -/
abbrev Program := Word → Option Instr

/-- A list of instructions from an address on. -/
def Program.ofList (base : Word) (code : List Instr) : Program := fun pc =>
  if (pc - base).toNat % 4 = 0 then code[(pc - base).toNat / 4]? else none

theorem Program.ofList_eq_some {base pc : Word} {code : List Instr} {i : Instr}
    (found : Program.ofList base code pc = some i) : ∃ k, (pc - base).toNat = 4 * k ∧ code[k]? = some i := by
  unfold ofList at found
  split at found
  · exact ⟨(pc - base).toNat / 4, by omega, found⟩
  · cases found

/-- The memory holds the program. -/
def Program.In (program : Program) (mem : ByteMem) : Prop :=
  ∀ pc i, program pc = some i → loadLE mem pc.toNat 4 = i.encode.setWidth 64

/-- The store of an instruction leaves the program alone. -/
def Instr.Spares (i : Instr) (s : State) (program : Program) : Prop :=
  ∀ addr width data, i.stores s = some (addr, width, data) → ∀ pc, (program pc).isSome = true →
    Apart addr.toNat width pc.toNat 4

theorem Program.In.exec {program : Program} {i : Instr} {s : State} (held : program.In s.mem)
    (spares : i.Spares s program) : program.In (i.exec s).mem := by
  intro pc i' found
  unfold Instr.exec
  cases stores : i.stores s with
  | none => exact held pc i' found
  | some store =>
      obtain ⟨addr, width, data⟩ := store
      exact (loadLE_storeLE_disjoint s.mem data (spares addr width data stores pc (by rw [found]; rfl))).trans
        (held pc i' found)

theorem Instr.mem_exec {i : Instr} {s : State} (quiet : i.stores s = none) : (i.exec s).mem = s.mem := by
  unfold Instr.exec
  rw [quiet]

/-- The registers after an instruction. -/
theorem Instr.reg_exec (i : Instr) (s : State) (r : Reg) :
    (i.exec s).reg r = match i.result s with
      | some (rd, value) => if r = x0 then 0 else if r = rd then value else s.reg r
      | none => s.reg r := by
  unfold State.reg Instr.exec
  cases i.result s with
  | none => rfl
  | some write =>
      simp only [setAt_apply]
      split
      · rfl
      · rfl

/-- An infinite run. -/
structure Computation (program : Program) where
  state : Nat → State
  inst : Nat → Instr
  fetched : ∀ n, program (state n).pc = some (inst n)
  step : ∀ n, state (n + 1) = (inst n).exec (state n)

/-- A program that never leaves its instructions from a state of an invariant has a computation. -/
theorem Computation.exists_of_invariant {program : Program} {P : State → Prop} {s : State} (initial : P s)
    (keeps : ∀ s, P s → ∃ i, program s.pc = some i ∧ P (i.exec s)) :
    ∃ c : Computation program, c.state 0 = s ∧ ∀ n, P (c.state n) := by
  let next (s : { s // P s }) : { s // P s } := ⟨_, (keeps s.1 s.2).choose_spec.2⟩
  let state (n : Nat) : { s // P s } := n.rec ⟨s, initial⟩ fun _ s => next s
  exact ⟨⟨fun n => (state n).1, fun n => (keeps (state n).1 (state n).2).choose,
    fun n => (keeps (state n).1 (state n).2).choose_spec.1, fun _ => rfl⟩, rfl, fun n => (state n).2⟩

end Sustemu.Lib.Rv64i
