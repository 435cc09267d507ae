import Sustemu.Lib.Bytes

/-!
# Decoded instructions

`IRInst` is the record that `ir_decode` fills and every engine passes through
its latches. A register index of `-1` is `none`. Decoding overwrites only some
fields: operands, results and prediction annotations that an encoding does not
set keep what the record held before.
-/

set_option autoImplicit false

namespace Sustemu

open Lib

abbrev Word := BitVec 64

abbrev Raw := BitVec 32

abbrev Reg := Fin 32

/-! The sizes of the index types are not zero. The proofs have names, so that a numeral of such a type is one term in
every module. -/

instance (priority := high) neZeroHarts : NeZero 2 := ⟨by decide⟩

instance (priority := high) neZeroLevels : NeZero 3 := ⟨by decide⟩

instance (priority := high) neZeroRegions : NeZero 8 := ⟨by decide⟩

instance (priority := high) neZeroSlots : NeZero 16 := ⟨by decide⟩

instance (priority := high) neZeroRegisters : NeZero 32 := ⟨by decide⟩

instance (priority := high) neZeroPhysical : NeZero 64 := ⟨by decide⟩

/-- First byte of physical memory. -/
def mbase : Word := 0x80000000

/-- First byte after physical memory. -/
def mend : Word := 0x88000000

/-- First device address. -/
def mmioBase : Word := 0xa0000000

/-- The cacheable range `[0x80000000, 0x88000000)`. -/
def inDram (addr : Word) : Bool := decide (mbase ≤ addr) && decide (addr < mend)

theorem inDram_iff {addr : Word} :
    inDram addr = true ↔ 0x80000000 ≤ addr.toNat ∧ addr.toNat < 0x88000000 := by
  simp [inDram, mbase, mend, BitVec.le_def, BitVec.lt_def]

def sext (width : Nat) (word : Word) : Word := (word.setWidth width).signExtend 64

/-- Bits `hi` down to `lo` of an instruction word. -/
def bits (raw : Raw) (hi lo : Nat) : Word := (raw.setWidth 64 >>> lo) &&& (BitVec.ofNat 64 (2 ^ (hi - lo + 1) - 1))

inductive IRInstType where
  | alu | load | store | branch | jal | jalr | lui | auipc | csr | system | fence | invalid
  deriving DecidableEq, Repr

/-- The executor functions of `ir.c`, by name. -/
inductive ExecFn where
  | auipc | lui
  | add | mul | sub | or | xor | and | slt | sltu | sll | srl | sra | div | divu | rem | remu
  | addw | mulw | subw | sllw | srlw | sraw | divw | divuw | remw | remuw
  | addi | ori | xori | andi | slti | sltiu | slli | srli | srai
  | addiw | slliw | srliw | sraiw
  | jal | jalr
  | beq | bne | blt | bge | bltu | bgeu
  | ld | lw | lh | lb | lwu | lhu | lbu
  | sd | sw | sh | sb
  | csrrw | csrrs | csrrc
  | ecall | mret | ebreak
  | fence | inv
  deriving DecidableEq, Repr

structure IRInst where
  pc : Word
  snpc : Word
  raw : Raw
  itype : IRInstType
  rd : Option Reg
  rs1 : Option Reg
  rs2 : Option Reg
  src1Val : Word
  src2Val : Word
  imm : Word
  memAddr : Word
  memWidth : Nat
  memSign : Bool
  result : Word
  dnpc : Word
  taken : Bool
  bpPredictTaken : Bool
  bpPredictedPc : Word
  rasTopSnap : Nat
  rasCntSnap : Nat
  serializing : Bool
  fault : Bool
  execFn : ExecFn
  deriving DecidableEq

/-- A record of zeros, as `memset` leaves it. -/
def IRInst.zero : IRInst where
  pc := 0
  snpc := 0
  raw := 0
  itype := .alu
  rd := some 0
  rs1 := some 0
  rs2 := some 0
  src1Val := 0
  src2Val := 0
  imm := 0
  memAddr := 0
  memWidth := 0
  memSign := false
  result := 0
  dnpc := 0
  taken := false
  bpPredictTaken := false
  bpPredictedPc := 0
  rasTopSnap := 0
  rasCntSnap := 0
  serializing := false
  fault := false
  execFn := .inv

/-- The architectural register file. `x0` reads as zero in every state, so the
record carries that fact and a write to `x0` is lost. -/
structure RegFile where
  get : Reg → Word
  zero : get 0 = 0

namespace RegFile

def empty : RegFile := ⟨fun _ => 0, rfl⟩

/-- `gpr[index] = value; gpr[0] = 0`. -/
def set (regs : RegFile) (index : Reg) (value : Word) : RegFile where
  get := fun other => if other = 0 then 0 else if other = index then value else regs.get other
  zero := if_pos rfl

@[simp] theorem get_zero (regs : RegFile) : regs.get 0 = 0 := regs.zero

theorem get_set (regs : RegFile) (index other : Reg) (value : Word) :
    (regs.set index value).get other =
      if other = 0 then 0 else if other = index then value else regs.get other := rfl

theorem get_set_self (regs : RegFile) {index : Reg} (value : Word) (nonzero : index ≠ 0) :
    (regs.set index value).get index = value := by
  rw [get_set, if_neg nonzero, if_pos rfl]

theorem get_set_of_ne (regs : RegFile) {index other : Reg} (value : Word) (different : other ≠ index) :
    (regs.set index value).get other = regs.get other := by
  rw [get_set, if_neg different]
  split
  · next isZero => rw [isZero, regs.zero]
  · rfl

@[ext] theorem ext {left right : RegFile} (same : ∀ index, left.get index = right.get index) : left = right := by
  cases left
  cases right
  congr
  exact funext same

end RegFile

structure CPUState where
  gpr : RegFile
  pc : Word

/-! ## Operand formats -/

inductive OperandType where
  | I | U | S | J | R | B | N
  deriving DecidableEq, Repr

def immI (raw : Raw) : Word := sext 12 (bits raw 31 20)

def immU (raw : Raw) : Word := sext 20 (bits raw 31 12) <<< 12

def immS (raw : Raw) : Word := (sext 7 (bits raw 31 25) <<< 5) ||| bits raw 11 7

def immJ (raw : Raw) : Word :=
  (sext 1 (bits raw 31 31) <<< 20) ||| (bits raw 19 12 <<< 12) ||| (bits raw 20 20 <<< 11) ||| (bits raw 30 21 <<< 1)

def immB (raw : Raw) : Word :=
  (sext 1 (bits raw 31 31) <<< 12) ||| (bits raw 7 7 <<< 11) ||| (bits raw 30 25 <<< 5) ||| (bits raw 11 8 <<< 1)

/-- A five-bit register field. -/
def regField (raw : Raw) (lo : Nat) : Reg := (raw.extractLsb' lo 5).toFin

def irFillOperands (gpr : RegFile) (ir : IRInst) (raw : Raw) (type : OperandType) : IRInst :=
  let rd := regField raw 7
  let rs1 := regField raw 15
  let rs2 := regField raw 20
  match type with
  | .I => { ir with rd := some rd, rs1 := some rs1, rs2 := none, src1Val := gpr.get rs1, src2Val := immI raw }
  | .U => { ir with rd := some rd, rs1 := none, rs2 := none, src1Val := immU raw }
  | .S => { ir with rd := none, rs1 := some rs1, rs2 := some rs2, imm := immS raw,
                    src1Val := gpr.get rs1, src2Val := gpr.get rs2 }
  | .J => { ir with rd := some rd, rs1 := none, rs2 := none, src1Val := immJ raw }
  | .R => { ir with rd := some rd, rs1 := some rs1, rs2 := some rs2,
                    src1Val := gpr.get rs1, src2Val := gpr.get rs2 }
  | .B => { ir with rd := none, rs1 := some rs1, rs2 := some rs2, imm := immB raw,
                    src1Val := gpr.get rs1, src2Val := gpr.get rs2 }
  | .N => { ir with rd := none, rs1 := none, rs2 := none }

/-! ## Decoding -/

def opcodeOf (raw : Raw) : Nat := (raw.extractLsb' 2 5).toNat

def funct3Of (raw : Raw) : Nat := (raw.extractLsb' 12 3).toNat

def funct7Of (raw : Raw) : Nat := (raw.extractLsb' 25 7).toNat

/-- The seven opcode bits that the out-of-order engine classifies by. -/
def opcode7Of (raw : Raw) : Nat := (raw.extractLsb' 0 7).toNat

/-- The opcode dispatch of `ir_decode`: operand format, executor and whether
the instruction is serialising. Where the source fills no operands the register
fields stay `-1`, which is what format `N` gives. -/
def irSelect (raw : Raw) : OperandType × ExecFn × Bool :=
  let funct3 := funct3Of raw
  let funct7 := funct7Of raw
  match opcodeOf raw with
  | 0x04 =>
      (.I, match funct3 with
        | 0 => .addi
        | 6 => .ori
        | 4 => .xori
        | 7 => .andi
        | 2 => .slti
        | 3 => .sltiu
        | 1 => .slli
        | 5 => if funct7 / 2 = 0x20 then .srai else .srli
        | _ => .inv, false)
  | 0x00 =>
      (.I, match funct3 with
        | 4 => .lbu
        | 0 => .lb
        | 2 => .lw
        | 3 => .ld
        | 1 => .lh
        | 5 => .lhu
        | 6 => .lwu
        | _ => .inv, false)
  | 0x08 =>
      (.S, match funct3 with
        | 0 => .sb
        | 1 => .sh
        | 2 => .sw
        | 3 => .sd
        | _ => .inv, false)
  | 0x18 =>
      (.B, match funct3 with
        | 0 => .beq
        | 1 => .bne
        | 4 => .blt
        | 5 => .bge
        | 6 => .bltu
        | 7 => .bgeu
        | _ => .inv, false)
  | 0x1b => (.J, .jal, false)
  | 0x19 => (.I, .jalr, false)
  | 0x05 => (.U, .auipc, false)
  | 0x0d => (.U, .lui, false)
  | 0x06 =>
      (.I, match funct3 with
        | 0 => .addiw
        | 1 => .slliw
        | 5 => if funct7 = 0x20 then .sraiw else .srliw
        | _ => .inv, false)
  | 0x0c =>
      (.R, match funct3 with
        | 0 => if funct7 = 0x00 then .add else if funct7 = 0x20 then .sub
               else if funct7 = 0x01 then .mul else .inv
        | 6 => if funct7 = 0x00 then .or else if funct7 = 0x01 then .rem else .inv
        | 4 => if funct7 = 0x00 then .xor else if funct7 = 0x01 then .div else .inv
        | 7 => if funct7 = 0x00 then .and else if funct7 = 0x01 then .remu else .inv
        | 2 => if funct7 = 0x00 then .slt else .inv
        | 3 => if funct7 = 0x00 then .sltu else if funct7 = 0x01 then .divu else .inv
        | 1 => if funct7 = 0x00 then .sll else .inv
        | 5 => if funct7 = 0x00 then .srl else if funct7 = 0x20 then .sra
               else if funct7 = 0x01 then .divu else .inv
        | _ => .inv, false)
  | 0x0e =>
      (.R, match funct3 with
        | 0 => if funct7 = 0x00 then .addw else if funct7 = 0x20 then .subw
               else if funct7 = 0x01 then .mulw else .inv
        | 1 => if funct7 = 0x00 then .sllw else .inv
        | 5 => if funct7 = 0x00 then .srlw else if funct7 = 0x20 then .sraw
               else if funct7 = 0x01 then .divuw else .inv
        | 4 => if funct7 = 0x01 then .divw else .inv
        | 6 => if funct7 = 0x01 then .remw else .inv
        | 7 => if funct7 = 0x01 then .remuw else .inv
        | _ => .inv, false)
  | 0x1c =>
      match funct3 with
      | 1 => (.I, .csrrw, true)
      | 2 => (.I, .csrrs, true)
      | 3 => (.I, .csrrc, true)
      | 0 =>
          if raw = 0x00000073 then (.N, .ecall, true)
          else if raw = 0x30200073 then (.N, .mret, true)
          else if raw = 0x00100073 then (.N, .ebreak, true)
          else (.N, .inv, false)
      | _ => (.N, .inv, false)
  | 0x03 => (.N, .fence, true)
  | _ => (.N, .inv, false)

/-- `ir_decode`: `ir` is the record being overwritten. -/
def irDecode (gpr : RegFile) (raw : Raw) (pc snpc : Word) (ir : IRInst) : IRInst :=
  let selected := irSelect raw
  let cleared := { ir with
    pc := pc, snpc := snpc, raw := raw, itype := .invalid, rd := none, rs1 := none, rs2 := none,
    dnpc := snpc, taken := false, memAddr := 0, memWidth := 0, serializing := false, fault := false }
  { irFillOperands gpr cleared raw selected.1 with execFn := selected.2.1, serializing := selected.2.2 }

end Sustemu
