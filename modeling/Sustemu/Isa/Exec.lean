import Sustemu.Isa.Csr

/-!
# Executors

The executor functions of `ir.c`. Each sets the instruction's class and what
the class needs: a result and a next program counter, or the effective address,
width and extension of a memory access. Integer division is taken as total;
`IRInst.divDefined` says when the operands have a defined quotient.
-/

set_option autoImplicit false

namespace Sustemu

open Lib

/-! ## Integer instructions -/

/-- The common shape of an ALU executor. -/
def irExecAlu (compute : Word → Word → Word) (ir : IRInst) : IRInst :=
  { ir with itype := .alu, result := compute ir.src1Val ir.src2Val, dnpc := ir.snpc }

def ofBool (condition : Bool) : Word := if condition then 1 else 0

/-- The 32-bit operand `(int32_t)(x & 0xffffffff)`. -/
def low32 (word : Word) : BitVec 32 := word.setWidth 32

def mask32 : Word := 0xffffffff

def irExecAuipc (ir : IRInst) : IRInst :=
  { ir with itype := .auipc, result := ir.src1Val + ir.pc, dnpc := ir.snpc }

def irExecLui (ir : IRInst) : IRInst :=
  { ir with itype := .lui, result := ir.src1Val &&& 0xfffffffffffff000, dnpc := ir.snpc }

def irExecAdd : IRInst → IRInst := irExecAlu fun a b => a + b

def irExecMul : IRInst → IRInst := irExecAlu fun a b => a * b

def irExecSub : IRInst → IRInst := irExecAlu fun a b => a - b

def irExecOr : IRInst → IRInst := irExecAlu fun a b => a ||| b

def irExecXor : IRInst → IRInst := irExecAlu fun a b => a ^^^ b

def irExecAnd : IRInst → IRInst := irExecAlu fun a b => a &&& b

def irExecSlt : IRInst → IRInst := irExecAlu fun a b => ofBool (a.slt b)

def irExecSltu : IRInst → IRInst := irExecAlu fun a b => ofBool (a.ult b)

def irExecSll : IRInst → IRInst := irExecAlu fun a b => a <<< (b &&& 0x3f).toNat

def irExecSrl : IRInst → IRInst := irExecAlu fun a b => a >>> (b &&& 0x3f).toNat

def irExecSra : IRInst → IRInst := irExecAlu fun a b => a.sshiftRight (b &&& 0x3f).toNat

def irExecDiv : IRInst → IRInst := irExecAlu fun a b => a.sdiv b

def irExecDivu : IRInst → IRInst := irExecAlu fun a b => a / b

def irExecRem : IRInst → IRInst := irExecAlu fun a b => a.srem b

def irExecRemu : IRInst → IRInst := irExecAlu fun a b => a % b

def irExecAddw : IRInst → IRInst := irExecAlu fun a b => sext 32 ((a + b) &&& mask32)

def irExecMulw : IRInst → IRInst := irExecAlu fun a b => (low32 a * low32 b).signExtend 64

def irExecSubw : IRInst → IRInst := irExecAlu fun a b => sext 32 ((a - b) &&& mask32)

def irExecSllw : IRInst → IRInst :=
  irExecAlu fun a b => sext 32 (((a &&& mask32) <<< (b &&& 0x1f).toNat) &&& mask32)

def irExecSrlw : IRInst → IRInst :=
  irExecAlu fun a b => sext 32 (((a &&& mask32) >>> (b &&& 0x1f).toNat) &&& mask32)

def irExecSraw : IRInst → IRInst :=
  irExecAlu fun a b => ((low32 a).sshiftRight (b &&& 0x1f).toNat).signExtend 64

def irExecDivw : IRInst → IRInst := irExecAlu fun a b => ((low32 a).sdiv (low32 b)).signExtend 64

def irExecDivuw : IRInst → IRInst := irExecAlu fun a b => sext 32 ((a &&& mask32) / (b &&& mask32))

def irExecRemw : IRInst → IRInst := irExecAlu fun a b => ((low32 a).srem (low32 b)).signExtend 64

def irExecRemuw : IRInst → IRInst :=
  irExecAlu fun a b => sext 32 (((a &&& mask32) % (b &&& mask32)) &&& mask32)

def irExecAddi : IRInst → IRInst := irExecAlu fun a b => a + b

def irExecOri : IRInst → IRInst := irExecAlu fun a b => a ||| b

def irExecXori : IRInst → IRInst := irExecAlu fun a b => a ^^^ b

def irExecAndi : IRInst → IRInst := irExecAlu fun a b => a &&& b

def irExecSlti : IRInst → IRInst := irExecAlu fun a b => ofBool (a.slt b)

def irExecSltiu : IRInst → IRInst := irExecAlu fun a b => ofBool (a.ult b)

-- The two immediate shifts below do not mask their count; a count of 64 or
-- more is undefined in C and is taken modulo 64, as the host shifts.
def irExecSlli : IRInst → IRInst := irExecAlu fun a b => a <<< (b.toNat % 64)

def irExecSrli : IRInst → IRInst := irExecAlu fun a b => a >>> (b.toNat % 64)

def irExecSrai : IRInst → IRInst := irExecAlu fun a b => a.sshiftRight (b &&& 0x3f).toNat

def irExecAddiw : IRInst → IRInst := irExecAlu fun a b => sext 32 ((a + b) &&& mask32)

def irExecSlliw : IRInst → IRInst :=
  irExecAlu fun a b => sext 32 (((a &&& mask32) <<< (b.toNat % 64)) &&& mask32)

def irExecSrliw : IRInst → IRInst :=
  irExecAlu fun a b => sext 32 (((a &&& mask32) >>> (b.toNat % 64)) &&& mask32)

def irExecSraiw : IRInst → IRInst :=
  irExecAlu fun a b => ((low32 a).sshiftRight (b &&& 0x1f).toNat).signExtend 64

/-! ## Control flow -/

def irExecJal (ir : IRInst) : IRInst :=
  { ir with itype := .jal, result := ir.snpc, dnpc := ir.pc + ir.src1Val }

def irExecJalr (ir : IRInst) : IRInst :=
  { ir with itype := .jalr, result := ir.snpc, dnpc := (ir.src1Val + ir.src2Val) &&& ~~~(1 : Word) }

/-- The common shape of a conditional branch. -/
def irExecBranch (condition : Word → Word → Bool) (ir : IRInst) : IRInst :=
  let taken := condition ir.src1Val ir.src2Val
  { ir with itype := .branch, taken := taken, dnpc := if taken then ir.pc + ir.imm else ir.snpc }

def irExecBeq : IRInst → IRInst := irExecBranch fun a b => a == b

def irExecBne : IRInst → IRInst := irExecBranch fun a b => a != b

def irExecBlt : IRInst → IRInst := irExecBranch fun a b => a.slt b

def irExecBge : IRInst → IRInst := irExecBranch fun a b => !a.slt b

def irExecBltu : IRInst → IRInst := irExecBranch fun a b => a.ult b

def irExecBgeu : IRInst → IRInst := irExecBranch fun a b => !a.ult b

/-! ## Memory accesses -/

def irExecLoad (width : Nat) (sign : Bool) (ir : IRInst) : IRInst :=
  { ir with itype := .load, memAddr := ir.src1Val + ir.src2Val, memWidth := width, memSign := sign,
            dnpc := ir.snpc }

def irExecLd : IRInst → IRInst := irExecLoad 8 false

def irExecLw : IRInst → IRInst := irExecLoad 4 true

def irExecLh : IRInst → IRInst := irExecLoad 2 true

def irExecLb : IRInst → IRInst := irExecLoad 1 true

def irExecLwu : IRInst → IRInst := irExecLoad 4 false

def irExecLhu : IRInst → IRInst := irExecLoad 2 false

def irExecLbu : IRInst → IRInst := irExecLoad 1 false

def irExecStore (width : Nat) (ir : IRInst) : IRInst :=
  { ir with itype := .store, memAddr := ir.src1Val + ir.imm, memWidth := width, dnpc := ir.snpc }

def irExecSd : IRInst → IRInst := irExecStore 8

def irExecSw : IRInst → IRInst := irExecStore 4

def irExecSh : IRInst → IRInst := irExecStore 2

def irExecSb : IRInst → IRInst := irExecStore 1

/-! ## System instructions -/

/-- The CSR number in the low twelve bits of the immediate. -/
def csrNo (ir : IRInst) : Nat := (ir.src2Val &&& 0xfff).toNat

-- With an immediate of zero `csrrw` does not read, and `result` keeps whatever
-- the record held.
def irExecCsrrw (perf : Perf) (ir : IRInst) (sys : Sys) : Option (IRInst × Sys) :=
  let read := if ir.src2Val ≠ 0 then readCsr perf sys (csrNo ir) else some (ir.result, sys)
  read.map fun (value, sys) =>
    ({ ir with itype := .csr, serializing := true, result := value, dnpc := ir.snpc },
      setCsr sys (csrNo ir) ir.src1Val)

/-- `csrrs` and `csrrc`: read, then write the combined value unless the mask is zero. -/
def irExecCsrrm (combine : Word → Word → Word) (perf : Perf) (ir : IRInst) (sys : Sys) :
    Option (IRInst × Sys) :=
  (readCsr perf sys (csrNo ir)).map fun (value, sys) =>
    ({ ir with itype := .csr, serializing := true, result := value, dnpc := ir.snpc },
      if ir.src1Val ≠ 0 then setCsr sys (csrNo ir) (combine value ir.src1Val) else sys)

def irExecCsrrs : Perf → IRInst → Sys → Option (IRInst × Sys) := irExecCsrrm fun value mask => value ||| mask

def irExecCsrrc : Perf → IRInst → Sys → Option (IRInst × Sys) := irExecCsrrm fun value mask => value &&& ~~~mask

def irExecEcall (ir : IRInst) (sys : Sys) : IRInst × Sys :=
  let raised := raiseIntr sys 11 ir.pc
  ({ ir with itype := .system, serializing := true, rd := none, dnpc := raised.1 },
    exceptionPrivTransfer raised.2)

def irExecMret (perf : Perf) (ir : IRInst) (sys : Sys) : Option (IRInst × Sys) :=
  (readCsr perf sys 0x341).map fun (target, sys) =>
    ({ ir with itype := .system, serializing := true, rd := none, dnpc := target }, mretPrivTransfer sys)

def irExecEbreak (ir : IRInst) (sys : Sys) : IRInst × Sys :=
  ({ ir with itype := .system, serializing := true, rd := none, dnpc := ir.snpc },
    { sys with state := .end })

def irExecFence (ir : IRInst) : IRInst :=
  { ir with itype := .fence, serializing := true, rd := none, result := 0, dnpc := ir.snpc }

def irExecInv (ir : IRInst) : IRInst :=
  { ir with itype := .invalid, fault := true, dnpc := ir.snpc }

/-! ## Dispatch -/

/-- `ir_execute` for the executors that touch only the instruction record. -/
def ExecFn.pure : ExecFn → Option (IRInst → IRInst)
  | .auipc => some irExecAuipc
  | .lui => some irExecLui
  | .add => some irExecAdd
  | .mul => some irExecMul
  | .sub => some irExecSub
  | .or => some irExecOr
  | .xor => some irExecXor
  | .and => some irExecAnd
  | .slt => some irExecSlt
  | .sltu => some irExecSltu
  | .sll => some irExecSll
  | .srl => some irExecSrl
  | .sra => some irExecSra
  | .div => some irExecDiv
  | .divu => some irExecDivu
  | .rem => some irExecRem
  | .remu => some irExecRemu
  | .addw => some irExecAddw
  | .mulw => some irExecMulw
  | .subw => some irExecSubw
  | .sllw => some irExecSllw
  | .srlw => some irExecSrlw
  | .sraw => some irExecSraw
  | .divw => some irExecDivw
  | .divuw => some irExecDivuw
  | .remw => some irExecRemw
  | .remuw => some irExecRemuw
  | .addi => some irExecAddi
  | .ori => some irExecOri
  | .xori => some irExecXori
  | .andi => some irExecAndi
  | .slti => some irExecSlti
  | .sltiu => some irExecSltiu
  | .slli => some irExecSlli
  | .srli => some irExecSrli
  | .srai => some irExecSrai
  | .addiw => some irExecAddiw
  | .slliw => some irExecSlliw
  | .srliw => some irExecSrliw
  | .sraiw => some irExecSraiw
  | .jal => some irExecJal
  | .jalr => some irExecJalr
  | .beq => some irExecBeq
  | .bne => some irExecBne
  | .blt => some irExecBlt
  | .bge => some irExecBge
  | .bltu => some irExecBltu
  | .bgeu => some irExecBgeu
  | .ld => some irExecLd
  | .lw => some irExecLw
  | .lh => some irExecLh
  | .lb => some irExecLb
  | .lwu => some irExecLwu
  | .lhu => some irExecLhu
  | .lbu => some irExecLbu
  | .sd => some irExecSd
  | .sw => some irExecSw
  | .sh => some irExecSh
  | .sb => some irExecSb
  | .fence => some irExecFence
  | .inv => some irExecInv
  | .csrrw | .csrrs | .csrrc | .ecall | .mret | .ebreak => none

/-- `ir_execute`; `none` is a failed assertion in `read_csr`. -/
def irExecute (perf : Perf) (ir : IRInst) (sys : Sys) : Option (IRInst × Sys) :=
  match ir.execFn.pure with
  | some run => some (run ir, sys)
  | none =>
      match ir.execFn with
      | .csrrw => irExecCsrrw perf ir sys
      | .csrrs => irExecCsrrs perf ir sys
      | .csrrc => irExecCsrrc perf ir sys
      | .ecall => some (irExecEcall ir sys)
      | .mret => irExecMret perf ir sys
      | .ebreak => some (irExecEbreak ir sys)
      | _ => some (ir, sys)

/-- The integer division this instruction would perform has a defined quotient. -/
def IRInst.divDefined (ir : IRInst) : Bool :=
  match ir.execFn with
  | .div | .rem => ir.src2Val != 0 && !(ir.src1Val == 0x8000000000000000 && ir.src2Val == -1)
  | .divu | .remu => ir.src2Val != 0
  | .divw | .remw => low32 ir.src2Val != 0 && !(low32 ir.src1Val == 0x80000000 && low32 ir.src2Val == -1)
  | .divuw | .remuw => low32 ir.src2Val != 0
  | _ => true

/-- `ir_writeback`. -/
def irWriteback (ir : IRInst) (gpr : RegFile) : RegFile :=
  match ir.rd with
  | some rd => gpr.set rd ir.result
  | none => gpr

end Sustemu
