import Sustemu.Lib.Rv64i
import Sustemu.Isa.Immediates
import Sustemu.Cpu.Trace

/-!
# RV64I through decoding and execution

Every instruction of the base set, encoded, is selected for the executor of its
name with its own operands, and what the executor computes is the instruction's
effect. The exception is the 64-bit arithmetic shift by an immediate, which
`ir_decode` takes for the logical one.
-/

set_option autoImplicit false

namespace Sustemu

open Lib Lib.Rv64i

/-! ## Selection -/

namespace Lib.Rv64i

def OpImm.execFn : OpImm → ExecFn
  | add => .addi
  | slt => .slti
  | sltu => .sltiu
  | xor => .xori
  | or => .ori
  | and => .andi

def Shift.execFn : Shift → ExecFn
  | sll => .slli
  | srl => .srli
  | sra => .srai

def Shift.execFnW : Shift → ExecFn
  | sll => .slliw
  | srl => .srliw
  | sra => .sraiw

def Op.execFn : Op → ExecFn
  | add => .add
  | sub => .sub
  | sll => .sll
  | slt => .slt
  | sltu => .sltu
  | xor => .xor
  | srl => .srl
  | sra => .sra
  | or => .or
  | and => .and

def OpW.execFn : OpW → ExecFn
  | add => .addw
  | sub => .subw
  | sll => .sllw
  | srl => .srlw
  | sra => .sraw

def Cond.execFn : Cond → ExecFn
  | eq => .beq
  | ne => .bne
  | lt => .blt
  | ge => .bge
  | ltu => .bltu
  | geu => .bgeu

def Load.execFn : Load → ExecFn
  | lb => .lb
  | lh => .lh
  | lw => .lw
  | ld => .ld
  | lbu => .lbu
  | lhu => .lhu
  | lwu => .lwu

def Store.execFn : Store → ExecFn
  | sb => .sb
  | sh => .sh
  | sw => .sw
  | sd => .sd

/-- The operand format and the executor of an instruction. -/
def Instr.selected : Instr → OperandType × ExecFn
  | lui _ _ => (.U, .lui)
  | auipc _ _ => (.U, .auipc)
  | jal _ _ => (.J, .jal)
  | jalr _ _ _ => (.I, .jalr)
  | branch cond _ _ _ => (.B, cond.execFn)
  | load kind _ _ _ => (.I, kind.execFn)
  | store kind _ _ _ => (.S, kind.execFn)
  | aluImm op _ _ _ => (.I, op.execFn)
  | shiftImm op _ _ _ => (.I, op.execFn)
  | alu op _ _ _ => (.R, op.execFn)
  | addiw _ _ _ => (.I, .addiw)
  | shiftImmW op _ _ _ => (.I, op.execFnW)
  | aluW op _ _ _ => (.R, op.execFn)

/-- Not `srai`. -/
def Instr.Handled : Instr → Prop
  | shiftImm .sra _ _ _ => False
  | _ => True

instance (i : Instr) : Decidable i.Handled := by
  unfold Instr.Handled
  split <;> infer_instance

end Lib.Rv64i

/-! ## Fields of encoded instructions -/

/-- The six slots of an instruction word. -/
structure Slots (raw : Raw) (opcode : BitVec 7) (rd : BitVec 5) (funct3 : BitVec 3) (rs1 rs2 : BitVec 5)
    (funct7 : BitVec 7) : Prop where
  opcode : raw.extractLsb' 0 7 = opcode
  rd : raw.extractLsb' 7 5 = rd
  funct3 : raw.extractLsb' 12 3 = funct3
  rs1 : raw.extractLsb' 15 5 = rs1
  rs2 : raw.extractLsb' 20 5 = rs2
  funct7 : raw.extractLsb' 25 7 = funct7

section Slots

variable {raw : Raw} {opcode funct7 : BitVec 7} {funct3 : BitVec 3} {rd rs1 rs2 : BitVec 5}
  (slots : Slots raw opcode rd funct3 rs1 rs2 funct7)

include slots

theorem Slots.opcodeOf : opcodeOf raw = (opcode.extractLsb' 2 5).toNat := by
  rw [← slots.opcode, BitVec.extractLsb'_extractLsb'_of_le (by decide)]
  rfl

theorem Slots.funct3Of : funct3Of raw = funct3.toNat := congrArg BitVec.toNat slots.funct3

theorem Slots.funct7Of : funct7Of raw = funct7.toNat := congrArg BitVec.toNat slots.funct7

theorem Slots.regField_rd : regField raw 7 = rd.toFin := congrArg BitVec.toFin slots.rd

theorem Slots.regField_rs1 : regField raw 15 = rs1.toFin := congrArg BitVec.toFin slots.rs1

theorem Slots.regField_rs2 : regField raw 20 = rs2.toFin := congrArg BitVec.toFin slots.rs2

end Slots

section Formats

variable (opcode funct7 : BitVec 7) (funct3 : BitVec 3) (rd rs1 rs2 : Reg) (imm : BitVec 12) (upper : BitVec 20)

theorem rType_slots : Slots (rType opcode funct7 rs2 rs1 funct3 rd) opcode (regBits rd) funct3 (regBits rs1) (regBits rs2)
    funct7 := by
  constructor <;> refine BitVec.eq_of_getLsbD_eq fun i inside => ?_ <;>
    simp only [rType, BitVec.getLsbD_append, BitVec.getLsbD_extractLsb'] <;> grind

theorem iType_slots : Slots (iType opcode imm rs1 funct3 rd) opcode (regBits rd) funct3 (regBits rs1)
    (imm.extractLsb' 0 5) (imm.extractLsb' 5 7) := by
  constructor <;> refine BitVec.eq_of_getLsbD_eq fun i inside => ?_ <;>
    simp only [iType, BitVec.getLsbD_append, BitVec.getLsbD_extractLsb'] <;> grind

theorem sType_slots : Slots (sType opcode imm rs2 rs1 funct3) opcode (imm.extractLsb' 0 5) funct3 (regBits rs1)
    (regBits rs2) (imm.extractLsb' 5 7) := by
  constructor <;> refine BitVec.eq_of_getLsbD_eq fun i inside => ?_ <;>
    simp only [sType, BitVec.getLsbD_append, BitVec.getLsbD_extractLsb'] <;> grind

theorem bType_slots : Slots (bType opcode imm rs2 rs1 funct3) opcode (imm.extractLsb' 0 4 ++ imm.extractLsb' 10 1) funct3
    (regBits rs1) (regBits rs2) (imm.extractLsb' 11 1 ++ imm.extractLsb' 4 6) := by
  constructor <;> refine BitVec.eq_of_getLsbD_eq fun i inside => ?_ <;>
    simp only [bType, BitVec.getLsbD_append, BitVec.getLsbD_extractLsb'] <;> grind

theorem uType_slots : Slots (uType opcode upper rd) opcode (regBits rd) (upper.extractLsb' 0 3) (upper.extractLsb' 3 5)
    (upper.extractLsb' 8 5) (upper.extractLsb' 13 7) := by
  constructor <;> refine BitVec.eq_of_getLsbD_eq fun i inside => ?_ <;>
    simp only [uType, BitVec.getLsbD_append, BitVec.getLsbD_extractLsb'] <;> grind

theorem immI_iType : immI (iType opcode imm rs1 funct3 rd) = imm.signExtend 64 := by
  refine BitVec.eq_of_getLsbD_eq fun i inside => ?_
  rw [getLsbD_immI _ inside, getLsbD_signExtend_last (by decide) _ inside]
  simp only [iType, BitVec.getLsbD_append]
  grind

theorem immS_sType : immS (sType opcode imm rs2 rs1 funct3) = imm.signExtend 64 := by
  refine BitVec.eq_of_getLsbD_eq fun i inside => ?_
  rw [getLsbD_immS _ inside, getLsbD_signExtend_last (by decide) _ inside]
  simp only [sType, BitVec.getLsbD_append, BitVec.getLsbD_extractLsb']
  grind

theorem immB_bType : immB (bType opcode imm rs2 rs1 funct3) = (imm ++ 0#1).signExtend 64 := by
  refine BitVec.eq_of_getLsbD_eq fun i inside => ?_
  rw [getLsbD_immB _ inside, getLsbD_signExtend_last (by decide) _ inside]
  simp only [bType, BitVec.getLsbD_append, BitVec.getLsbD_extractLsb']
  grind

theorem immU_uType : immU (uType opcode upper rd) = (upper ++ 0#12).signExtend 64 := by
  refine BitVec.eq_of_getLsbD_eq fun i inside => ?_
  rw [getLsbD_immU _ inside, getLsbD_signExtend_last (by decide) _ inside]
  simp only [uType, BitVec.getLsbD_append]
  grind

theorem immJ_jType : immJ (jType opcode upper rd) = (upper ++ 0#1).signExtend 64 := by
  refine BitVec.eq_of_getLsbD_eq fun i inside => ?_
  rw [getLsbD_immJ _ inside, getLsbD_signExtend_last (by decide) _ inside]
  simp only [jType, uType, BitVec.getLsbD_append, BitVec.getLsbD_extractLsb']
  grind

end Formats

theorem irSelect_encode (i : Instr) (handled : i.Handled) : irSelect i.encode = (i.selected.1, i.selected.2, false) := by
  cases i with
  | lui rd imm =>
      have slots := uType_slots 0x37 rd imm
      simp only [Instr.encode, irSelect, slots.opcodeOf]
      rfl
  | auipc rd imm =>
      have slots := uType_slots 0x17 rd imm
      simp only [Instr.encode, irSelect, slots.opcodeOf]
      rfl
  | jal rd offset =>
      have slots := uType_slots 0x6f rd
        (offset.extractLsb' 19 1 ++ offset.extractLsb' 0 10 ++ offset.extractLsb' 10 1 ++ offset.extractLsb' 11 8)
      simp only [Instr.encode, irSelect, jType, slots.opcodeOf]
      rfl
  | jalr rd rs1 offset =>
      have slots := iType_slots 0x67 0 rd rs1 offset
      simp only [Instr.encode, irSelect, slots.opcodeOf]
      rfl
  | branch cond rs1 rs2 offset =>
      have slots := bType_slots 0x63 cond.funct3 rs1 rs2 offset
      simp only [Instr.encode, irSelect, slots.opcodeOf, slots.funct3Of]
      cases cond <;> rfl
  | load kind rd rs1 offset =>
      have slots := iType_slots 0x03 kind.funct3 rd rs1 offset
      simp only [Instr.encode, irSelect, slots.opcodeOf, slots.funct3Of]
      cases kind <;> rfl
  | store kind rs1 rs2 offset =>
      have slots := sType_slots 0x23 kind.funct3 rs1 rs2 offset
      simp only [Instr.encode, irSelect, slots.opcodeOf, slots.funct3Of]
      cases kind <;> rfl
  | aluImm op rd rs1 imm =>
      have slots := iType_slots 0x13 op.op.funct3 rd rs1 imm
      simp only [Instr.encode, irSelect, slots.opcodeOf, slots.funct3Of]
      cases op <;> rfl
  | shiftImm op rd rs1 amount =>
      have slots := iType_slots 0x13 op.op.funct3 rd rs1 (op.op.alternative.extractLsb' 1 6 ++ amount)
      simp only [Instr.encode, irSelect, slots.opcodeOf, slots.funct3Of, slots.funct7Of]
      cases op with
      | sll => rfl
      | srl =>
          have logical : ∀ amount : BitVec 6,
              ((Op.srl.alternative.extractLsb' 1 6 ++ amount).extractLsb' 5 7).toNat / 2 ≠ 0x20 := by decide
          exact congrArg (fun fn => (OperandType.I, fn, false)) (if_neg (logical amount))
      | sra => cases handled
  | alu op rd rs1 rs2 =>
      have slots := rType_slots 0x33 op.alternative op.funct3 rd rs1 rs2
      simp only [Instr.encode, irSelect, slots.opcodeOf, slots.funct3Of, slots.funct7Of]
      cases op <;> rfl
  | addiw rd rs1 imm =>
      have slots := iType_slots 0x1b 0 rd rs1 imm
      simp only [Instr.encode, irSelect, slots.opcodeOf, slots.funct3Of]
      rfl
  | shiftImmW op rd rs1 amount =>
      have slots := iType_slots 0x1b op.op.funct3 rd rs1 (op.op.alternative ++ amount)
      have high : (op.op.alternative ++ amount : BitVec 12).extractLsb' 5 7 = op.op.alternative :=
        BitVec.extractLsb'_append_eq_left
      rw [high] at slots
      simp only [Instr.encode, irSelect, slots.opcodeOf, slots.funct3Of, slots.funct7Of]
      cases op <;> rfl
  | aluW op rd rs1 rs2 =>
      have slots := rType_slots 0x3b op.op.alternative op.op.funct3 rd rs1 rs2
      simp only [Instr.encode, irSelect, slots.opcodeOf, slots.funct3Of, slots.funct7Of]
      cases op <;> rfl

/-! ## Operations -/

theorem toNat_and_mask (b : Word) (k : Nat) (small : k < 64) : (b &&& BitVec.ofNat 64 (2 ^ k - 1)).toNat = b.toNat % 2 ^ k := by
  have power : 2 ^ k ≤ 2 ^ 63 := Nat.pow_le_pow_right (by decide) (by omega)
  rw [BitVec.toNat_and, BitVec.toNat_ofNat, Nat.mod_eq_of_lt (by omega), Nat.and_two_pow_sub_one_eq_mod]

theorem getLsbD_mask32 (i : Nat) : mask32.getLsbD i = decide (i < 32) := getLsbD_mask (n := 32) (by decide) i

theorem setWidth_mask32 (a : Word) : (a &&& mask32).setWidth 32 = a.setWidth 32 := by
  refine BitVec.eq_of_getLsbD_eq fun i inside => ?_
  rw [BitVec.getLsbD_setWidth, BitVec.getLsbD_setWidth, BitVec.getLsbD_and, getLsbD_mask32, decide_eq_true inside,
    Bool.and_true]

theorem sext_mask32 (a : Word) : sext 32 (a &&& mask32) = (a.setWidth 32).signExtend 64 :=
  congrArg (BitVec.signExtend 64) (setWidth_mask32 a)

theorem setWidth_shiftLeft_mask32 (a : Word) (amount : Nat) :
    ((a &&& mask32) <<< amount).setWidth 32 = a.setWidth 32 <<< amount := by
  refine BitVec.eq_of_getLsbD_eq fun i inside => ?_
  have low : i - amount < 32 := by omega
  simp [getLsbD_mask32, inside, low]

theorem setWidth_ushiftRight_mask32 (a : Word) (amount : Nat) :
    ((a &&& mask32) >>> amount).setWidth 32 = a.setWidth 32 >>> amount := by
  refine BitVec.eq_of_getLsbD_eq fun i inside => ?_
  simp only [BitVec.getLsbD_setWidth, BitVec.getLsbD_and, BitVec.getLsbD_ushiftRight, getLsbD_mask32, inside,
    decide_true, Bool.true_and]
  rw [Bool.and_comm]

theorem setWidth_sub (a b : Word) : (a - b).setWidth 32 = a.setWidth 32 - b.setWidth 32 := by
  apply BitVec.eq_of_toNat_eq
  simp only [BitVec.toNat_setWidth, BitVec.toNat_sub]
  omega

theorem sext_add_mask32 (a b : Word) : sext 32 ((a + b) &&& mask32) = Op.add.evalW a b :=
  (sext_mask32 _).trans (congrArg (BitVec.signExtend 64) (BitVec.setWidth_add a b (by decide)))

/-- A shift amount of the low half. -/
theorem amount_low32 (b : Word) : (b &&& 0x1f).toNat = (b.setWidth 32).toNat % 32 := by
  refine (toNat_and_mask b 5 (by decide)).trans ?_
  rw [BitVec.toNat_setWidth]
  omega

theorem Lib.Rv64i.Op.pure_execFn (op : Op) : ∃ compute, op.execFn.pure = some (irExecAlu compute) ∧
    ∀ a b, compute a b = op.eval a b := by
  cases op with
  | add | sub | xor | or | and => exact ⟨_, rfl, fun _ _ => rfl⟩
  | sll => exact ⟨_, rfl, fun a b => congrArg (a <<< ·) (toNat_and_mask b 6 (by decide))⟩
  | srl => exact ⟨_, rfl, fun a b => congrArg (a >>> ·) (toNat_and_mask b 6 (by decide))⟩
  | sra => exact ⟨_, rfl, fun a b => congrArg (a.sshiftRight ·) (toNat_and_mask b 6 (by decide))⟩
  | slt => exact ⟨_, rfl, fun a b => by simp [ofBool, Op.eval, BitVec.slt]⟩
  | sltu => exact ⟨_, rfl, fun a b => by simp [ofBool, Op.eval, BitVec.ult]⟩

theorem Lib.Rv64i.OpImm.pure_execFn (op : OpImm) : ∃ compute, op.execFn.pure = some (irExecAlu compute) ∧
    ∀ a b, compute a b = op.op.eval a b := by
  cases op with
  | add | xor | or | and => exact ⟨_, rfl, fun _ _ => rfl⟩
  | slt => exact ⟨_, rfl, fun a b => by simp [ofBool, OpImm.op, Op.eval, BitVec.slt]⟩
  | sltu => exact ⟨_, rfl, fun a b => by simp [ofBool, OpImm.op, Op.eval, BitVec.ult]⟩

theorem Lib.Rv64i.OpW.pure_execFn (op : OpW) : ∃ compute, op.execFn.pure = some (irExecAlu compute) ∧
    ∀ a b, compute a b = op.op.evalW a b := by
  cases op with
  | add => exact ⟨_, rfl, sext_add_mask32⟩
  | sub => exact ⟨_, rfl, fun a b => (sext_mask32 _).trans (congrArg _ (setWidth_sub a b))⟩
  | sll =>
      refine ⟨_, rfl, fun a b => (sext_mask32 _).trans (congrArg (BitVec.signExtend 64) ?_)⟩
      rw [setWidth_shiftLeft_mask32, amount_low32]
      rfl
  | srl =>
      refine ⟨_, rfl, fun a b => (sext_mask32 _).trans (congrArg (BitVec.signExtend 64) ?_)⟩
      rw [setWidth_ushiftRight_mask32, amount_low32]
      rfl
  | sra =>
      refine ⟨_, rfl, fun a b => ?_⟩
      rw [amount_low32]
      rfl

theorem Lib.Rv64i.Shift.pure_execFn (op : Shift) (logical : op ≠ .sra) (amount : BitVec 6) : ∃ compute,
    op.execFn.pure = some (irExecAlu compute) ∧
      ∀ a, compute a ((op.op.alternative.extractLsb' 1 6 ++ amount : BitVec 12).signExtend 64) =
        op.op.eval a (amount.setWidth 64) := by
  have same : (op.op.alternative.extractLsb' 1 6 ++ amount : BitVec 12).signExtend 64 = amount.setWidth 64 := by
    cases op with
    | sll | srl =>
        revert amount
        decide
    | sra => exact absurd rfl logical
  rw [same]
  cases op with
  | sll | srl => exact ⟨_, rfl, fun _ => rfl⟩
  | sra => exact absurd rfl logical

theorem Lib.Rv64i.Shift.pure_execFnW (op : Shift) (amount : BitVec 5) : ∃ compute,
    op.execFnW.pure = some (irExecAlu compute) ∧
      ∀ a, compute a ((op.op.alternative ++ amount : BitVec 12).signExtend 64) = op.op.evalW a (amount.setWidth 64) := by
  cases op with
  | sll =>
      refine ⟨_, rfl, fun a => (sext_mask32 _).trans (congrArg (BitVec.signExtend 64) ?_)⟩
      have same : ((Shift.sll.op.alternative ++ amount : BitVec 12).signExtend 64).toNat % 64 =
          ((amount.setWidth 64).setWidth 32).toNat % 32 := by
        revert amount
        decide
      rw [setWidth_shiftLeft_mask32, same]
      rfl
  | srl =>
      refine ⟨_, rfl, fun a => (sext_mask32 _).trans (congrArg (BitVec.signExtend 64) ?_)⟩
      have same : ((Shift.srl.op.alternative ++ amount : BitVec 12).signExtend 64).toNat % 64 =
          ((amount.setWidth 64).setWidth 32).toNat % 32 := by
        revert amount
        decide
      rw [setWidth_ushiftRight_mask32, same]
      rfl
  | sra =>
      refine ⟨_, rfl, fun a => ?_⟩
      have same : (((Shift.sra.op.alternative ++ amount : BitVec 12).signExtend 64).setWidth 32).toNat % 32 =
          ((amount.setWidth 64).setWidth 32).toNat % 32 := by
        revert amount
        decide
      rw [amount_low32, same]
      rfl

/-! ## Effects -/

/-- The parts of an executed record that the instruction determines in the state. -/
structure IRInst.Effect (ir : IRInst) (i : Instr) (s : State) : Prop where
  next : ir.dnpc = i.next s
  result : ir.rd.map (fun rd => (rd, ir.result)) = i.result s
  loads : (if ir.itype = .load then some (ir.memAddr, ir.memWidth) else none) = i.loads s
  stores : (if ir.itype = .store then some (ir.memAddr, ir.memWidth, ir.src2Val) else none) = i.stores s

section Effects

variable {d : IRInst} {i : Instr} {s : State}

/-- A record without an access. -/
theorem effect_of_result {ir : IRInst} (next : ir.dnpc = i.next s) (result : ir.rd.map (fun rd => (rd, ir.result)) = i.result s)
    (load : ir.itype ≠ .load) (store : ir.itype ≠ .store) (idle : i.loads s = none) (quiet : i.stores s = none) :
    (ir.loaded s.mem).Effect i s := by
  unfold IRInst.loaded
  rw [if_neg load]
  refine ⟨next, result, ?_, ?_⟩
  · rw [if_neg load, idle]
  · rw [if_neg store, quiet]

theorem irExecAlu_effect {compute : Word → Word → Word} (next : d.snpc = i.next s)
    (result : d.rd.map (fun rd => (rd, compute d.src1Val d.src2Val)) = i.result s) (idle : i.loads s = none)
    (quiet : i.stores s = none) : ((irExecAlu compute d).loaded s.mem).Effect i s :=
  effect_of_result next result (by rintro ⟨⟩) (by rintro ⟨⟩) idle quiet

theorem irExecBranch_effect {condition : Word → Word → Bool} (dest : d.rd = none)
    (next : (if condition d.src1Val d.src2Val then d.pc + d.imm else d.snpc) = i.next s) (unwritten : i.result s = none)
    (idle : i.loads s = none) (quiet : i.stores s = none) : ((irExecBranch condition d).loaded s.mem).Effect i s := by
  refine effect_of_result next ?_ (by rintro ⟨⟩) (by rintro ⟨⟩) idle quiet
  change d.rd.map _ = _
  rw [dest, unwritten]
  rfl

theorem irExecLoad_effect {width : Nat} {sign : Bool} {rd : Reg} {addr : Word} (dest : d.rd = some rd)
    (base : d.src1Val + d.src2Val = addr) (next : d.snpc = i.next s) (loads : i.loads s = some (addr, width))
    (result : i.result s = some (rd, extend sign width (loadLE s.mem addr.toNat width))) (quiet : i.stores s = none) :
    ((irExecLoad width sign d).loaded s.mem).Effect i s := by
  have kind : (irExecLoad width sign d).itype = .load := rfl
  unfold IRInst.loaded
  rw [if_pos kind]
  refine ⟨next, ?_, ?_, ?_⟩
  · change d.rd.map (fun rd => (rd, extend sign width (loadLE s.mem (d.src1Val + d.src2Val).toNat width))) = _
    rw [dest, base, result]
    rfl
  · rw [loads, ← base, if_pos kind]
    rfl
  · rw [quiet, if_neg (by rintro ⟨⟩)]

theorem irExecStore_effect {width : Nat} {a : Word} (dest : d.rd = none) (base : d.src1Val + d.imm = a)
    (next : d.snpc = i.next s) (unwritten : i.result s = none) (idle : i.loads s = none)
    (stores : i.stores s = some (a, width, d.src2Val)) : ((irExecStore width d).loaded s.mem).Effect i s := by
  have kind : (irExecStore width d).itype = .store := rfl
  unfold IRInst.loaded
  rw [if_neg (by rw [kind]; rintro ⟨⟩)]
  refine ⟨next, ?_, ?_, ?_⟩
  · change d.rd.map _ = _
    rw [dest, unwritten]
    rfl
  · rw [idle, if_neg (by rw [kind]; rintro ⟨⟩)]
  · rw [stores, ← base, if_pos kind]
    rfl

end Effects

/-- The low bits of an upper immediate are zero. -/
theorem and_upper (imm : BitVec 20) :
    (imm ++ 0#12).signExtend 64 &&& 0xfffffffffffff000 = (imm ++ 0#12).signExtend 64 := by
  have high : ∀ i : Fin 64, (0xfffffffffffff000 : Word).getLsbD i = decide (12 ≤ i.val) := by decide
  refine BitVec.eq_of_getLsbD_eq fun i inside => ?_
  rw [BitVec.getLsbD_and, high ⟨i, inside⟩, getLsbD_signExtend_last (by decide) _ inside, BitVec.getLsbD_append]
  by_cases zero : i < 12
  · simp [zero, Nat.not_le.mpr zero]
  · simp [Nat.not_lt.mp zero]

theorem Lib.Rv64i.Cond.pure_execFn (cond : Cond) : ∃ condition, cond.execFn.pure = some (irExecBranch condition) ∧
    ∀ a b, condition a b = cond.holds a b := by
  cases cond with
  | eq => exact ⟨_, rfl, fun a b => Bool.beq_eq_decide_eq a b⟩
  | ne => exact ⟨_, rfl, fun a b => by simp [Cond.holds, bne, Bool.beq_eq_decide_eq]⟩
  | lt => exact ⟨_, rfl, fun a b => by simp [Cond.holds, BitVec.slt]⟩
  | ge => exact ⟨_, rfl, fun a b => by simp [Cond.holds, BitVec.slt, ← decide_not]⟩
  | ltu => exact ⟨_, rfl, fun a b => by simp [Cond.holds, BitVec.ult]⟩
  | geu => exact ⟨_, rfl, fun a b => by simp [Cond.holds, BitVec.ult, ← decide_not]⟩

theorem Lib.Rv64i.Load.pure_execFn (kind : Load) : kind.execFn.pure = some (irExecLoad kind.width kind.signed) := by
  cases kind <;> rfl

theorem Lib.Rv64i.Store.pure_execFn (kind : Store) : kind.execFn.pure = some (irExecStore kind.width) := by
  cases kind <;> rfl

/-- An encoded instruction, decoded and executed over the registers and the memory of a state. -/
theorem irExecute_effect {i : Instr} (handled : i.Handled) {gpr : RegFile} {s : State} (regs : ∀ r, gpr.get r = s.reg r)
    (junk : IRInst) : ∃ run, i.selected.2.pure = some run ∧
      ((run (irDecode gpr i.encode s.pc (s.pc + 4) junk)).loaded s.mem).Effect i s := by
  have format := congrArg Prod.fst (irSelect_encode i handled)
  unfold irDecode
  simp only [format]
  cases i with
  | lui rd imm =>
      have slots := uType_slots 0x37 rd imm
      refine ⟨_, rfl, effect_of_result rfl ?_ (by rintro ⟨⟩) (by rintro ⟨⟩) rfl rfl⟩
      simp only [irExecLui, Instr.selected, irFillOperands, Instr.encode, slots.regField_rd, immU_uType, and_upper]
      rfl
  | auipc rd imm =>
      have slots := uType_slots 0x17 rd imm
      refine ⟨_, rfl, effect_of_result rfl ?_ (by rintro ⟨⟩) (by rintro ⟨⟩) rfl rfl⟩
      simp only [irExecAuipc, Instr.selected, irFillOperands, Instr.encode, slots.regField_rd, immU_uType]
      rw [BitVec.add_comm]
      rfl
  | jal rd offset =>
      have slots : Slots (jType 0x6f offset rd) _ _ _ _ _ _ := uType_slots 0x6f rd _
      refine ⟨_, rfl, effect_of_result ?_ ?_ (by rintro ⟨⟩) (by rintro ⟨⟩) rfl rfl⟩
      · simp only [irExecJal, Instr.selected, irFillOperands, Instr.encode, immJ_jType]
        rfl
      · simp only [irExecJal, Instr.selected, irFillOperands, Instr.encode, slots.regField_rd]
        rfl
  | jalr rd rs1 offset =>
      have slots := iType_slots 0x67 0 rd rs1 offset
      refine ⟨_, rfl, effect_of_result ?_ ?_ (by rintro ⟨⟩) (by rintro ⟨⟩) rfl rfl⟩
      · simp only [irExecJalr, Instr.selected, irFillOperands, Instr.encode, slots.regField_rs1, immI_iType, regs]
        rfl
      · simp only [irExecJalr, Instr.selected, irFillOperands, Instr.encode, slots.regField_rd]
        rfl
  | branch cond rs1 rs2 offset =>
      obtain ⟨condition, executor, decides⟩ := cond.pure_execFn
      have slots := bType_slots 0x63 cond.funct3 rs1 rs2 offset
      refine ⟨_, executor, irExecBranch_effect rfl ?_ rfl rfl rfl⟩
      simp only [Instr.selected, irFillOperands, Instr.encode, slots.regField_rs1, slots.regField_rs2, immB_bType, decides,
        regs]
      rfl
  | load kind rd rs1 offset =>
      have slots := iType_slots 0x03 kind.funct3 rd rs1 offset
      refine ⟨_, kind.pure_execFn, irExecLoad_effect ?_ ?_ rfl rfl rfl rfl⟩
      · simp only [Instr.selected, irFillOperands, Instr.encode, slots.regField_rd]
        rfl
      · simp only [Instr.selected, irFillOperands, Instr.encode, slots.regField_rs1, immI_iType, regs]
        rfl
  | store kind rs1 rs2 offset =>
      have slots := sType_slots 0x23 kind.funct3 rs1 rs2 offset
      refine ⟨_, kind.pure_execFn, irExecStore_effect (a := s.reg rs1 + offset.signExtend 64) rfl ?_ rfl rfl rfl ?_⟩
      · simp only [Instr.selected, irFillOperands, Instr.encode, slots.regField_rs1, immS_sType, regs]
        rfl
      · simp only [Instr.selected, irFillOperands, Instr.encode, slots.regField_rs2, regs]
        rfl
  | aluImm op rd rs1 imm =>
      obtain ⟨compute, executor, computes⟩ := op.pure_execFn
      have slots := iType_slots 0x13 op.op.funct3 rd rs1 imm
      refine ⟨_, executor, irExecAlu_effect rfl ?_ rfl rfl⟩
      simp only [Instr.selected, irFillOperands, Instr.encode, slots.regField_rd, slots.regField_rs1, immI_iType, computes,
        regs]
      rfl
  | shiftImm op rd rs1 amount =>
      have logical : op ≠ .sra := by
        rintro rfl
        exact handled
      obtain ⟨compute, executor, computes⟩ := op.pure_execFn logical amount
      have slots := iType_slots 0x13 op.op.funct3 rd rs1 (op.op.alternative.extractLsb' 1 6 ++ amount)
      refine ⟨_, executor, irExecAlu_effect rfl ?_ rfl rfl⟩
      simp only [Instr.selected, irFillOperands, Instr.encode, slots.regField_rd, slots.regField_rs1, immI_iType, computes,
        regs]
      rfl
  | alu op rd rs1 rs2 =>
      obtain ⟨compute, executor, computes⟩ := op.pure_execFn
      have slots := rType_slots 0x33 op.alternative op.funct3 rd rs1 rs2
      refine ⟨_, executor, irExecAlu_effect rfl ?_ rfl rfl⟩
      simp only [Instr.selected, irFillOperands, Instr.encode, slots.regField_rd, slots.regField_rs1, slots.regField_rs2,
        computes, regs]
      rfl
  | addiw rd rs1 imm =>
      have slots := iType_slots 0x1b 0 rd rs1 imm
      refine ⟨irExecAddiw, rfl, irExecAlu_effect rfl ?_ rfl rfl⟩
      simp only [Instr.selected, irFillOperands, Instr.encode, slots.regField_rd, slots.regField_rs1, immI_iType, regs,
        sext_add_mask32]
      rfl
  | shiftImmW op rd rs1 amount =>
      obtain ⟨compute, executor, computes⟩ := op.pure_execFnW amount
      have slots := iType_slots 0x1b op.op.funct3 rd rs1 (op.op.alternative ++ amount)
      refine ⟨_, executor, irExecAlu_effect rfl ?_ rfl rfl⟩
      simp only [Instr.selected, irFillOperands, Instr.encode, slots.regField_rd, slots.regField_rs1, immI_iType, computes,
        regs]
      rfl
  | aluW op rd rs1 rs2 =>
      obtain ⟨compute, executor, computes⟩ := op.pure_execFn
      have slots := rType_slots 0x3b op.op.alternative op.op.funct3 rd rs1 rs2
      refine ⟨_, executor, irExecAlu_effect rfl ?_ rfl rfl⟩
      simp only [Instr.selected, irFillOperands, Instr.encode, slots.regField_rd, slots.regField_rs1, slots.regField_rs2,
        computes, regs]
      rfl

/-- An executed record belongs to the instruction at the program counter of the state, and has its effect. -/
structure IRInst.Realizes (ir : IRInst) (i : Instr) (s : State) : Prop extends ir.Effect i s where
  pc : ir.pc = s.pc
  raw : ir.raw = i.encode
  fn : ir.execFn = i.selected.2
  kind : ir.itype = i.selected.2.itype

theorem Lib.Rv64i.Instr.selected_plain (i : Instr) : i.selected.2.itype.Plain = true := by
  cases i with
  | branch op _ _ _ | load op _ _ _ | store op _ _ _ | aluImm op _ _ _ | shiftImm op _ _ _ | alu op _ _ _
  | shiftImmW op _ _ _ | aluW op _ _ _ => cases op <;> rfl
  | lui | auipc | jal | jalr | addiw => rfl

theorem irExecute_realizes {i : Instr} (handled : i.Handled) {gpr : RegFile} {s : State}
    (regs : ∀ r, gpr.get r = s.reg r) (junk : IRInst) : ∃ run,
      (irDecode gpr i.encode s.pc (s.pc + 4) junk).execFn.pure = some run ∧
      ((run (irDecode gpr i.encode s.pc (s.pc + 4) junk)).loaded s.mem).Realizes i s := by
  obtain ⟨run, executor, effect⟩ := irExecute_effect handled regs junk
  obtain ⟨fetched, pc, raw⟩ := irDecode_fetched gpr i.encode s.pc junk
  have fn : (irDecode gpr i.encode s.pc (s.pc + 4) junk).execFn = i.selected.2 := by
    rw [fetched.decoded.fn, raw, irSelect_encode i handled]
  have kind := pure_itype executor (irDecode gpr i.encode s.pc (s.pc + 4) junk)
  rw [← fn] at executor
  have same := (pure_sameInst _ executor).1
  have loaded : ∀ executed : IRInst, executed.SameInst (executed.loaded s.mem) ∧
      (executed.loaded s.mem).itype = executed.itype := by
    intro executed
    unfold IRInst.loaded
    split
    · exact ⟨⟨rfl, rfl, rfl, rfl, rfl, rfl, rfl, rfl, id, fun _ => rfl⟩, rfl⟩
    · exact ⟨.refl _, rfl⟩
  obtain ⟨sameLoaded, sameKind⟩ := loaded (run (irDecode gpr i.encode s.pc (s.pc + 4) junk))
  have whole := same.trans sameLoaded
  exact ⟨run, executor, effect, whole.pc.trans pc, whole.raw.trans raw, whole.execFn.trans fn, sameKind.trans kind⟩

theorem IRInst.Realizes.divDefined {ir : IRInst} {i : Instr} {s : State} (realizes : ir.Realizes i s) :
    ir.divDefined = true := by
  unfold IRInst.divDefined
  rw [realizes.fn]
  cases i with
  | branch op _ _ _ | load op _ _ _ | store op _ _ _ | aluImm op _ _ _ | shiftImm op _ _ _ | alu op _ _ _
  | shiftImmW op _ _ _ | aluW op _ _ _ => cases op <;> rfl
  | lui | auipc | jal | jalr | addiw => rfl

/-- The registers after an instruction are written back. -/
theorem IRInst.Effect.writeback {ir : IRInst} {i : Instr} {s : State} (effect : ir.Effect i s) {gpr : RegFile}
    (regs : ∀ r, gpr.get r = s.reg r) (r : Reg) : (irWriteback ir gpr).get r = (i.exec s).reg r := by
  rw [i.reg_exec, ← effect.result]
  unfold irWriteback
  cases ir.rd with
  | none => exact regs r
  | some rd =>
      simp only [Option.map_some, RegFile.get_set, regs]
      rfl

theorem IRInst.Effect.write {ir : IRInst} {i : Instr} {s : State} (effect : ir.Effect i s) :
    ir.write = (i.stores s).map fun store => ⟨store.1.toNat, store.2.1, store.2.2⟩ := by
  rw [← effect.stores]
  unfold IRInst.write
  split <;> rfl

theorem IRInst.Effect.perform {ir : IRInst} {i : Instr} {s : State} (effect : ir.Effect i s) (written : Set Nat) :
    ((⟨s.mem, written⟩ : Flat).perform ir.write).bytes = (i.exec s).mem := by
  rw [effect.write]
  unfold Instr.exec
  cases i.stores s <;> rfl

/-! ## Standard encodings -/

theorem Slots.encoded {raw : Raw} {opcode funct7 : BitVec 7} {funct3 : BitVec 3} {rd rs1 rs2 : BitVec 5}
    (slots : Slots raw opcode rd funct3 rs1 rs2 funct7) (standard : opcode.toNat % 4 = 3) : raw.toNat % 4 = 3 := by
  have low := congrArg BitVec.toNat slots.opcode
  rw [BitVec.extractLsb'_toNat, Nat.shiftRight_zero] at low
  omega

theorem Lib.Rv64i.Instr.encode_standard (i : Instr) : i.encode.toNat % 4 = 3 := by
  cases i with
  | lui rd imm => exact (uType_slots 0x37 rd imm).encoded rfl
  | auipc rd imm => exact (uType_slots 0x17 rd imm).encoded rfl
  | jal rd offset => exact Slots.encoded (uType_slots 0x6f rd _) rfl
  | jalr rd rs1 offset => exact (iType_slots 0x67 0 rd rs1 offset).encoded rfl
  | branch cond rs1 rs2 offset => exact (bType_slots 0x63 cond.funct3 rs1 rs2 offset).encoded rfl
  | load kind rd rs1 offset => exact (iType_slots 0x03 kind.funct3 rd rs1 offset).encoded rfl
  | store kind rs1 rs2 offset => exact (sType_slots 0x23 kind.funct3 rs1 rs2 offset).encoded rfl
  | aluImm op rd rs1 imm => exact (iType_slots 0x13 op.op.funct3 rd rs1 imm).encoded rfl
  | shiftImm op rd rs1 amount => exact Slots.encoded (iType_slots 0x13 op.op.funct3 rd rs1 _) rfl
  | alu op rd rs1 rs2 => exact (rType_slots 0x33 op.alternative op.funct3 rd rs1 rs2).encoded rfl
  | addiw rd rs1 imm => exact (iType_slots 0x1b 0 rd rs1 imm).encoded rfl
  | shiftImmW op rd rs1 amount => exact Slots.encoded (iType_slots 0x1b op.op.funct3 rd rs1 _) rfl
  | aluW op rd rs1 rs2 => exact (rType_slots 0x3b op.op.alternative op.op.funct3 rd rs1 rs2).encoded rfl

end Sustemu
