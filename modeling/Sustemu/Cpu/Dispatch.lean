import Mathlib.Tactic.IntervalCases
import Sustemu.Cpu.Functional
import Sustemu.Isa.CsrAccess
import Sustemu.Isa.Patterns

/-!
# Dispatch against the pattern table

Each row of `inst_table.inc` has a body that executes the instruction in one
go. Running the executor that `ir_decode` selects, the memory access and the
write-back is compared with the body of the first row that matches.
-/

set_option autoImplicit false

namespace Sustemu

open Lib

/-! ## Bodies of the table -/

/-- The locals of `decode_exec` that `decode_operand` fills. -/
structure Locals where
  dest : Word
  src1 : Word
  src2 : Word

/-- `decode_operand`; a format leaves alone what it does not set. -/
def decodeOperand (gpr : RegFile) (raw : Raw) (type : OperandType) (old : Locals) : Locals :=
  let rs1 := regField raw 15
  let rs2 := regField raw 20
  let l := { old with dest := bits raw 11 7 }
  match type with
  | .I => { l with src1 := gpr.get rs1, src2 := immI raw }
  | .U => { l with src1 := immU raw }
  | .S => { l with dest := immS raw, src1 := gpr.get rs1, src2 := gpr.get rs2 }
  | .J => { l with src1 := immJ raw }
  | .R => { l with src1 := gpr.get rs1, src2 := gpr.get rs2 }
  | .B => { l with src1 := gpr.get rs1, src2 := gpr.get rs2, dest := immB raw }
  | .N => l

/-- The register that `R(dest)` names. -/
def Locals.destReg (l : Locals) : Reg := (l.dest.setWidth 5).toFin

/-- The expression assigned to `R(dest)` by the rows without a memory access. -/
def tableValue (pc : Word) (fn : ExecFn) (src1 src2 : Word) : Option Word :=
  match fn with
  | .auipc => some (src1 + pc)
  | .lui => some (src1 &&& 0xfffffffffffff000)
  | .add | .addi => some (src1 + src2)
  | .mul => some (src1 * src2)
  | .sub => some (src1 - src2)
  | .or | .ori => some (src1 ||| src2)
  | .xor | .xori => some (src1 ^^^ src2)
  | .and | .andi => some (src1 &&& src2)
  | .slt | .slti => some (ofBool (src1.slt src2))
  | .sltu | .sltiu => some (ofBool (src1.ult src2))
  | .sll => some (src1 <<< (src2 &&& 0x3f).toNat)
  | .srl => some (src1 >>> (src2 &&& 0x3f).toNat)
  | .sra | .srai => some (src1.sshiftRight (src2 &&& 0x3f).toNat)
  | .div => some (src1.sdiv src2)
  | .divu => some (src1 / src2)
  | .rem => some (src1.srem src2)
  | .remu => some (src1 % src2)
  | .addw | .addiw => some (sext 32 ((src1 + src2) &&& mask32))
  | .mulw => some ((low32 src1 * low32 src2).signExtend 64)
  | .subw => some (sext 32 ((src1 - src2) &&& mask32))
  | .sllw => some (sext 32 (((src1 &&& mask32) <<< (src2 &&& 0x1f).toNat) &&& mask32))
  | .srlw => some (sext 32 (((src1 &&& mask32) >>> (src2 &&& 0x1f).toNat) &&& mask32))
  | .sraw | .sraiw => some (((low32 src1).sshiftRight (src2 &&& 0x1f).toNat).signExtend 64)
  | .divw => some (((low32 src1).sdiv (low32 src2)).signExtend 64)
  | .divuw => some (sext 32 ((src1 &&& mask32) / (src2 &&& mask32)))
  | .remw => some (((low32 src1).srem (low32 src2)).signExtend 64)
  | .remuw => some (sext 32 (((src1 &&& mask32) % (src2 &&& mask32)) &&& mask32))
  -- shift counts that the body does not mask are taken modulo 64, as the host shifts
  | .slli => some (src1 <<< (src2.toNat % 64))
  | .srli => some (src1 >>> (src2.toNat % 64))
  | .slliw => some (sext 32 (((src1 &&& mask32) <<< (src2.toNat % 64)) &&& mask32))
  | .srliw => some (sext 32 (((src1 &&& mask32) >>> (src2.toNat % 64)) &&& mask32))
  | _ => none

/-- The condition of a branch row. -/
def tableCondition (fn : ExecFn) (src1 src2 : Word) : Option Bool :=
  match fn with
  | .beq => some (src1 == src2)
  | .bne => some (src1 != src2)
  | .blt => some (src1.slt src2)
  | .bge => some (!src1.slt src2)
  | .bltu => some (src1.ult src2)
  | .bgeu => some (!src1.ult src2)
  | _ => none

/-- Width and extension of a load row. -/
def tableLoad : ExecFn → Option (Nat × (Word → Word))
  | .ld => some (8, id)
  | .lw => some (4, fun value => (value.setWidth 32).signExtend 64)
  | .lh => some (2, fun value => (value.setWidth 16).signExtend 64)
  | .lb => some (1, fun value => (value.setWidth 8).signExtend 64)
  | .lwu => some (4, fun value => (value.setWidth 32).setWidth 64)
  | .lhu => some (2, fun value => (value.setWidth 16).setWidth 64)
  | .lbu => some (1, fun value => (value.setWidth 8).setWidth 64)
  | _ => none

/-- Width of a store row. -/
def tableStore : ExecFn → Option Nat
  | .sd => some 8
  | .sw => some 4
  | .sh => some 2
  | .sb => some 1
  | _ => none

section Bodies

variable {σ : Type} (vm : VMem σ)

/-- The body of `csrrs` and `csrrc`, which reads the register a second time before writing it. -/
def tableCsrrm (combine : Word → Word → Word) (pc : Word) (l : Locals) (gpr : RegFile) (w : World σ) :
    Option (RegFile × Word × World σ) := do
  let no := (l.src2 &&& 0xfff).toNat
  let (value, sys) ← readCsr (vm.perf w) w.sys no
  let gpr := gpr.set l.destReg value
  if l.src1 ≠ 0 then
    let (value, sys) ← readCsr (vm.perf w) sys no
    some (gpr, pc + 4, { w with sys := setCsr sys no (combine value l.src1) })
  else some (gpr, pc + 4, { w with sys := sys })

/-- The rows that are neither arithmetic nor memory accesses. -/
def tableSpecial (fn : ExecFn) (pc : Word) (l : Locals) (gpr : RegFile) (w : World σ) :
    Option (RegFile × Word × World σ) :=
  match fn with
  | .jal => some (gpr.set l.destReg (pc + 4), pc + l.src1, w)
  | .jalr => some (gpr.set l.destReg (pc + 4), (l.src1 + l.src2) &&& ~~~(1 : Word), w)
  | .csrrw => do
      let no := (l.src2 &&& 0xfff).toNat
      if l.src2 ≠ 0 then
        let (value, sys) ← readCsr (vm.perf w) w.sys no
        some (gpr.set l.destReg value, pc + 4, { w with sys := setCsr sys no l.src1 })
      else some (gpr, pc + 4, { w with sys := setCsr w.sys no l.src1 })
  | .csrrs => tableCsrrm vm (fun value mask => value ||| mask) pc l gpr w
  | .csrrc => tableCsrrm vm (fun value mask => value &&& ~~~mask) pc l gpr w
  | .ecall =>
      let raised := raiseIntr w.sys 11 pc
      some (gpr, raised.1, { w with sys := exceptionPrivTransfer raised.2 })
  | .mret => (readCsr (vm.perf w) w.sys 0x341).map fun (target, sys) =>
      (gpr, target, { w with sys := mretPrivTransfer sys })
  | .ebreak => some (gpr, pc + 4, { w with sys := { w.sys with state := .end } })
  | .fence => some (gpr.set 0 0, pc + 4, w)
  | _ => some (gpr, pc + 4, { w with sys := w.sys.abort })

/-- The body of a row: registers, next program counter and world after it. -/
def tableBody (fn : ExecFn) (pc : Word) (l : Locals) (gpr : RegFile) (w : World σ) :
    Option (RegFile × Word × World σ) :=
  match tableValue pc fn l.src1 l.src2, tableCondition fn l.src1 l.src2, tableLoad fn, tableStore fn with
  | some value, _, _, _ => some (gpr.set l.destReg value, pc + 4, w)
  | none, some taken, _, _ => some (gpr, if taken then pc + l.dest else pc + 4, w)
  | none, none, some (width, extension), _ =>
      (vm.read w (l.src1 + l.src2) width).map fun (value, w) => (gpr.set l.destReg (extension value), pc + 4, w)
  | none, none, none, some width =>
      (vm.write w (l.src1 + l.dest) width l.src2).map fun w => (gpr, pc + 4, w)
  | none, none, none, none => tableSpecial vm fn pc l gpr w

/-- The first row that matches, executed. -/
def tableExec (old : Locals) (raw : Raw) (pc : Word) (gpr : RegFile) (w : World σ) :
    Option (RegFile × Word × World σ) :=
  let (type, fn) := tableSelect raw
  tableBody vm fn pc (decodeOperand gpr raw type old) gpr w

/-- The selected executor, memory access and write-back. -/
def irExec (stack : IRInst) (raw : Raw) (pc : Word) (gpr : RegFile) (w : World σ) :
    Option (RegFile × Word × World σ) := do
  let ir := irDecode gpr raw pc (pc + 4) stack
  let (ir, sys) ← irExecute (vm.perf w) ir w.sys
  let (ir, w) ← irMemAccess vm ir { w with sys := sys }
  some (irWriteback ir gpr, ir.dnpc, w)

end Bodies

/-- Registers, next program counter, memory and system registers. The stop flags are left out: the body of an
invalid row sets them and the executor leaves that to its caller. -/
def observed {σ : Type} (after : RegFile × Word × World σ) : RegFile × Word × σ × Sys :=
  (after.1, after.2.1, after.2.2.mem, { after.2.2.sys with state := .running, isBad := false })

/-- For the word `raw` the dispatch agrees with the table. -/
structure DispatchAgrees (raw : Raw) : Prop where
  selected : tableSelect raw = ((irSelect raw).1, (irSelect raw).2.1)
  effect : ∀ (σ : Type) (vm : VMem σ) (stack : IRInst) (old : Locals) (pc : Word) (gpr : RegFile) (w : World σ),
    (irExec vm stack raw pc gpr w).map observed = (tableExec vm old raw pc gpr w).map observed

/-! ## One row against its executor -/

theorem toFin_bits_rd (raw : Raw) : ((bits raw 11 7).setWidth 5).toFin = regField raw 7 := by
  unfold regField
  congr 1
  apply BitVec.eq_of_getLsbD_eq
  intro i bound
  interval_cases i <;> simp [bits]

/-- The pairs of operand format and executor in the table. -/
def tableRows : List (OperandType × ExecFn) := decodedTable.map fun row => (row.2.2, row.2.1)

theorem tableSelect_mem (raw : Raw) : tableSelect raw ∈ tableRows := by
  rw [tableSelect_decoded]
  split
  · next row found => exact List.mem_map_of_mem (f := fun row => (row.2.2, row.2.1)) (List.mem_of_find?_eq_some found)
  · decide +kernel

/-- A check that fails leaves a state in which it fails again. -/
theorem privCheck_again {sys : Sys} {no : Nat} {isWrite : Bool} (refused : (privCheck sys no isWrite).1 = false) :
    privCheck (privCheck sys no isWrite).2 no isWrite = (false, (privCheck sys no isWrite).2) := by
  unfold privCheck at refused ⊢
  split at refused
  · next => simp only
  · next level readable writable _ =>
      simp only
      split at refused
      · next low => simp only [if_pos low]; rw [if_pos (show sys.abort.privLevel < level from low)]; rfl
      · next high =>
          split at refused
          · next unread =>
              simp only [if_neg high, if_pos unread]
              rw [if_neg (show ¬ sys.abort.privLevel < level from high)]
              rfl
          · next reads =>
              split at refused
              · next unwritten =>
                  simp only [if_neg high, if_neg reads, if_pos unwritten]
                  rw [if_neg (show ¬ sys.abort.privLevel < level from high)]
                  rfl
              · cases refused

/-- Reading a CSR twice is reading it once. -/
theorem readCsr_again {perf : Perf} {sys sys' : Sys} {no : Nat} {value : Word}
    (read : readCsr perf sys no = some (value, sys')) : readCsr perf sys' no = some (value, sys') := by
  cases check : (privCheck sys no false).1 with
  | true =>
      have kept : sys' = sys := by
        unfold readCsr at read
        rw [if_pos check, privCheck_passes check] at read
        simp only at read
        split at read <;> first | (cases read; rfl) | cases read
      rw [kept] at read ⊢
      exact read
  | false =>
      have refused := privCheck_again check
      unfold readCsr at read
      simp only [check, Bool.false_eq_true, ↓reduceIte, Option.some.injEq, Prod.mk.injEq] at read
      obtain ⟨rfl, rfl⟩ := read
      unfold readCsr
      rw [refused]
      rfl

/-- The executor of `csrrs` and `csrrc` reads once what the body reads twice. -/
theorem csrrm_agree {σ : Type} {vm : VMem σ} {c : Word → Word → Word} {l : Locals} {pc : Word} {gpr : RegFile}
    {w : World σ} {ir : IRInst} (src1 : ir.src1Val = l.src1) (src2 : ir.src2Val = l.src2) (rd : ir.rd = some l.destReg)
    (next : ir.snpc = pc + 4) :
    ((irExecCsrrm c (vm.perf w) ir w.sys).bind fun (ir, sys) =>
      (irMemAccess vm ir { w with sys := sys }).bind fun (ir, w) => some (irWriteback ir gpr, ir.dnpc, w)) =
      tableCsrrm vm c pc l gpr w := by
  unfold irExecCsrrm tableCsrrm csrNo
  simp only [src1, src2]
  generalize (l.src2 &&& 0xfff).toNat = no
  cases read : readCsr (vm.perf w) w.sys no with
  | none => rfl
  | some outcome =>
      obtain ⟨value, sys⟩ := outcome
      have again := readCsr_again read
      simp only [Option.map_some, Option.bind_some, irMemAccess, irWriteback, rd, next, ne_eq, Option.bind_eq_bind]
      by_cases mask : l.src1 = 0
      · rw [if_neg (not_not.mpr mask), if_neg (not_not.mpr mask)]
      · rw [if_pos mask, if_pos mask, again]
        rfl

theorem RegFile.set_zero (regs : RegFile) (value : Word) : regs.set 0 value = regs := by
  ext index
  rw [get_set]
  by_cases zero : index = 0
  · rw [if_pos zero, zero, get_zero]
  · rw [if_neg zero, if_neg zero]

section Accesses

variable {σ : Type} {vm : VMem σ} {ir : IRInst} {r : Reg} {w : World σ} {gpr : RegFile}

/-- A load and its write-back. -/
theorem access_load (kind : ir.itype = .load) (rd : ir.rd = some r) :
    ((irMemAccess vm ir w).bind fun x => some (irWriteback x.1 gpr, x.1.dnpc, x.2)) =
      (vm.read w ir.memAddr ir.memWidth).map fun x => (gpr.set r (extend ir.memSign ir.memWidth x.1), ir.dnpc, x.2) := by
  unfold irMemAccess
  rw [kind]
  cases vm.read w ir.memAddr ir.memWidth with
  | none => rfl
  | some outcome => simp only [Option.map_some, Option.bind_some, irWriteback, rd]

/-- A store. -/
theorem access_store (kind : ir.itype = .store) (rd : ir.rd = none) :
    ((irMemAccess vm ir w).bind fun x => some (irWriteback x.1 gpr, x.1.dnpc, x.2)) =
      (vm.write w ir.memAddr ir.memWidth ir.src2Val).map fun w => (gpr, ir.dnpc, w) := by
  unfold irMemAccess
  rw [kind]
  cases vm.write w ir.memAddr ir.memWidth ir.src2Val with
  | none => rfl
  | some world => simp only [Option.map_some, Option.bind_some, irWriteback, rd]

/-- The executor of `csrrw` writes its destination even when it did not read. -/
theorem csrrw_agree {l : Locals} {pc : Word} (src1 : ir.src1Val = l.src1) (src2 : ir.src2Val = l.src2)
    (rd : ir.rd = some l.destReg) (next : ir.snpc = pc + 4) (kept : l.src2 = 0 → gpr.set l.destReg ir.result = gpr) :
    ((irExecCsrrw (vm.perf w) ir w.sys).bind fun (ir, sys) =>
      (irMemAccess vm ir { w with sys := sys }).bind fun (ir, w) => some (irWriteback ir gpr, ir.dnpc, w)) =
      tableSpecial vm .csrrw pc l gpr w := by
  unfold irExecCsrrw tableSpecial csrNo
  simp only [src1, src2]
  by_cases number : l.src2 = 0
  · have same := kept number
    simp only [if_neg (not_not.mpr number), Option.map_some, Option.bind_some, irMemAccess, irWriteback, rd, next, same]
  · simp only [if_pos number]
    cases read : readCsr (vm.perf w) w.sys (l.src2 &&& 0xfff).toNat with
    | none => rfl
    | some outcome => simp only [Option.map_some, Option.bind_some, irMemAccess, irWriteback, rd, next, Option.bind_eq_bind]

end Accesses

/-- An executor has the effect of the row with its name and operand format, unless it is a `csrrw` of CSR 0
that names a destination. -/
theorem effect_agrees {raw : Raw} {type : OperandType} {fn : ExecFn} {serializing : Bool}
    (selected : irSelect raw = (type, fn, serializing)) (listed : (type, fn) ∈ tableRows)
    (csrrw : fn = .csrrw → immI raw = 0 → regField raw 7 = 0) {σ : Type} (vm : VMem σ) (stack : IRInst) (old : Locals)
    (pc : Word) (gpr : RegFile) (w : World σ) : (irExec vm stack raw pc gpr w).map observed =
      (tableBody vm fn pc (decodeOperand gpr raw type old) gpr w).map observed := by
  have dest : ∀ l : Locals, l.dest = bits raw 11 7 → l.destReg = regField raw 7 := by
    intro l same
    unfold Locals.destReg
    rw [same, toFin_bits_rd]
  unfold irExec irDecode
  rw [selected]
  cases fn with
  | auipc | lui =>
      obtain rfl : type = .U := by revert listed; cases type <;> decide +kernel
      simp only [tableBody, tableValue]
      rw [dest _ rfl]
      rfl
  | add | mul | sub | or | xor | and | slt | sltu | sll | srl | sra | div | divu | rem | remu
  | addw | mulw | subw | sllw | srlw | sraw | divw | divuw | remw | remuw =>
      obtain rfl : type = .R := by revert listed; cases type <;> decide +kernel
      simp only [tableBody, tableValue]
      rw [dest _ rfl]
      rfl
  | addi | ori | xori | andi | slti | sltiu | slli | srli | srai | addiw | slliw | srliw | sraiw =>
      obtain rfl : type = .I := by revert listed; cases type <;> decide +kernel
      simp only [tableBody, tableValue]
      rw [dest _ rfl]
      rfl
  | jal =>
      obtain rfl : type = .J := by revert listed; cases type <;> decide +kernel
      simp only [tableBody, tableValue, tableCondition, tableLoad, tableStore, tableSpecial]
      rw [dest _ rfl]
      rfl
  | jalr =>
      obtain rfl : type = .I := by revert listed; cases type <;> decide +kernel
      simp only [tableBody, tableValue, tableCondition, tableLoad, tableStore, tableSpecial]
      rw [dest _ rfl]
      rfl
  | beq | bne | blt | bge | bltu | bgeu =>
      obtain rfl : type = .B := by revert listed; cases type <;> decide +kernel
      rfl
  | ld | lw | lh | lb | lwu | lhu | lbu =>
      obtain rfl : type = .I := by revert listed; cases type <;> decide +kernel
      simp only [tableBody, tableValue, tableCondition, tableLoad]
      rw [dest _ rfl]
      exact congrArg (Option.map observed) (access_load rfl rfl)
  | sd | sw | sh | sb =>
      obtain rfl : type = .S := by revert listed; cases type <;> decide +kernel
      exact congrArg (Option.map observed) (access_store rfl rfl)
  | csrrw =>
      obtain rfl : type = .I := by revert listed; cases type <;> decide +kernel
      refine congrArg (Option.map observed) (csrrw_agree rfl rfl (congrArg some (dest _ rfl).symm) rfl ?_)
      intro number
      rw [dest _ rfl, csrrw rfl number, RegFile.set_zero]
  | csrrs =>
      obtain rfl : type = .I := by revert listed; cases type <;> decide +kernel
      exact congrArg (Option.map observed) (csrrm_agree (c := fun value mask => value ||| mask) rfl rfl
        (congrArg some (dest _ rfl).symm) rfl)
  | csrrc =>
      obtain rfl : type = .I := by revert listed; cases type <;> decide +kernel
      exact congrArg (Option.map observed) (csrrm_agree (c := fun value mask => value &&& ~~~mask) rfl rfl
        (congrArg some (dest _ rfl).symm) rfl)
  | ecall =>
      obtain rfl : type = .I := by revert listed; cases type <;> decide +kernel
      rfl
  | mret =>
      obtain rfl : type = .R := by revert listed; cases type <;> decide +kernel
      simp only [tableBody, tableValue, tableCondition, tableLoad, tableStore, tableSpecial]
      simp only [irExecute, irFillOperands, ExecFn.pure, irExecMret]
      cases readCsr (vm.perf w) w.sys 0x341 with
      | none => rfl
      | some outcome => rfl
  | ebreak | inv =>
      obtain rfl : type = .N := by revert listed; cases type <;> decide +kernel
      rfl
  | fence =>
      -- both fences assign zero to register zero
      simp only [tableBody, tableValue, tableCondition, tableLoad, tableStore, tableSpecial, RegFile.set_zero]
      cases type <;> rfl

/-! ## Agreement -/

theorem irSelect_csrrw {raw : Raw} : (irSelect raw).2.1 = .csrrw → opcodeOf raw = 0x1c ∧ funct3Of raw = 1 := by
  intro fn
  unfold irSelect at fn
  simp only at fn
  split at fn
  case h_12 opcode =>
    refine ⟨opcode, ?_⟩
    split at fn
    · assumption
    · cases fn
    · cases fn
    · split at fn
      · cases fn
      · split at fn
        · cases fn
        · split at fn <;> cases fn
    · cases fn
  all_goals (try split at fn) <;> (try split at fn) <;> (try split at fn) <;> (try split at fn) <;> cases fn

theorem irSelect_of_csrrw {raw : Raw} (opcode : opcode7Of raw = 0x73) (funct3 : funct3Of raw = 1) :
    irSelect raw = (.I, .csrrw, true) := by
  have five : opcodeOf raw = 0x1c := by rw [opcodeOf_eq, opcode]
  unfold irSelect
  simp only [five, funct3]

/-- `csrrw` of CSR 0 puts into its destination what the record held before. -/
theorem csrrw_writes_junk {raw : Raw} (opcode : opcode7Of raw = 0x73) (funct3 : funct3Of raw = 1) (number : immI raw = 0)
    (agrees : DispatchAgrees raw) : regField raw 7 = 0 := by
  by_contra dest
  have selected := irSelect_of_csrrw opcode funct3
  have same := agrees.effect Unit .absent { IRInst.zero with result := 1 } ⟨0, 0, 0⟩ 0 .empty ⟨Sys.init, ()⟩
  have row := agrees.selected
  rw [selected] at row
  have executed : (irExec .absent { IRInst.zero with result := 1 } raw 0 .empty ⟨Sys.init, ()⟩).map
      (fun after => after.1.get (regField raw 7)) = some 1 := by
    unfold irExec irDecode
    rw [selected]
    simp only [irFillOperands, irExecute, ExecFn.pure, irExecCsrrw, number]
    simp [irMemAccess, irWriteback, RegFile.get_set_self _ _ dest]
  have body : (tableExec .absent ⟨0, 0, 0⟩ raw 0 .empty ⟨Sys.init, ()⟩).map
      (fun after => after.1.get (regField raw 7)) = some 0 := by
    unfold tableExec
    rw [row]
    simp [tableBody, tableValue, tableCondition, tableLoad, tableStore, tableSpecial, decodeOperand, number, RegFile.empty]
  have observedSame := congrArg (Option.map fun after => after.1.get (regField raw 7)) same
  simp only [Option.map_map] at observedSame
  rw [show (fun after : RegFile × Word × Unit × Sys => after.1.get (regField raw 7)) ∘ observed =
    fun after => after.1.get (regField raw 7) from rfl] at observedSame
  rw [executed, body] at observedSame
  cases observedSame

/-- The fast dispatch agrees with the pattern table exactly for the words that it gives the table's executor and
operand format, other than a `csrrw` of CSR 0 with a destination. -/
theorem dispatch_agrees_iff (raw : Raw) : DispatchAgrees raw ↔ DispatchSelects raw ∧
    (opcode7Of raw = 0x73 → funct3Of raw = 1 → immI raw = 0 → regField raw 7 = 0) := by
  constructor
  · intro agrees
    exact ⟨(tableSelect_iff raw).mp agrees.selected, fun opcode funct3 number => csrrw_writes_junk opcode funct3 number agrees⟩
  · rintro ⟨selects, csrrw⟩
    have selected := (tableSelect_iff raw).mpr selects
    refine ⟨selected, fun σ vm stack old pc gpr w => ?_⟩
    have listed := tableSelect_mem raw
    rw [selected] at listed
    unfold tableExec
    rw [selected]
    have parts : irSelect raw = ((irSelect raw).1, (irSelect raw).2.1, (irSelect raw).2.2) := rfl
    refine effect_agrees parts listed ?_ vm stack old pc gpr w
    intro fn number
    obtain ⟨opcode, funct3⟩ := irSelect_csrrw fn
    by_cases encoded : opcode7Of raw = 0x73
    · exact csrrw encoded funct3 number
    · -- a word of another opcode is invalid in the table
      rw [opcodeOf_eq] at opcode
      have other : opcode7Of raw ∉ tableOpcodes := by
        simp only [tableOpcodes, List.mem_cons, List.not_mem_nil, or_false]
        omega
      rw [tableSelect_none other, fn] at selected
      cases congrArg Prod.snd selected

/-- `srai x1, x1, 1` is executed as a logical shift. -/
theorem srai_shifts_logically : tableSelect 0x4010d093 = (.I, .srai) ∧ irSelect 0x4010d093 = (.I, .srli, false) ∧
    ¬ DispatchAgrees 0x4010d093 :=
  ⟨by decide +kernel, by decide +kernel, fun agrees => absurd agrees.selected (by decide +kernel)⟩

end Sustemu
