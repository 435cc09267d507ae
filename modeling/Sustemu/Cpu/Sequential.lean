import Sustemu.Cpu.Core
import Sustemu.Isa.Decoded
import Sustemu.Lib.Run

/-!
# One instruction after the other

What it means for a hart to execute its instructions in program order: each is
decoded with the registers its predecessors left, executed against the system
registers they left, and written back. What a load reads is left open, as other
harts may write memory in between.
-/

set_option autoImplicit false

namespace Sustemu

open Lib

/-- The instruction with the value a load has read; other instructions read none. -/
def IRInst.withLoad (ir : IRInst) (value : Word) : IRInst := if ir.itype = .load then { ir with result := value } else ir

/-- A record as decoding leaves it, whatever the record held before. -/
structure IRInst.Awaits (ir : IRInst) (cpu : CPUState) : Prop where
  pc : ir.pc = cpu.pc
  decoded : irDecode cpu.gpr ir.raw ir.pc (ir.pc + 4) ir = ir

/-- The instruction `ir` takes hart `h` from `s` to `s'`. -/
inductive Performs (h : Fin 2) (s : CoreArch) : IRInst → CoreArch → Prop
  | intro {perf : Perf} {sys sys' : Sys} {decoded executed : IRInst} (value : Word) (awaits : decoded.Awaits s.cpu)
      (hart : sys.hartid = h) (arch : s = .save s.cpu sys) (run : irExecute perf decoded sys = some (executed, sys')) :
      Performs h s (executed.withLoad value)
        (.save ⟨irWriteback (executed.withLoad value) s.cpu.gpr, executed.dnpc⟩ sys')

section Load

variable (ir : IRInst) (value : Word)

@[simp] theorem withLoad_pc : (ir.withLoad value).pc = ir.pc := by
  unfold IRInst.withLoad
  split <;> rfl

@[simp] theorem withLoad_raw : (ir.withLoad value).raw = ir.raw := by
  unfold IRInst.withLoad
  split <;> rfl

@[simp] theorem withLoad_dnpc : (ir.withLoad value).dnpc = ir.dnpc := by
  unfold IRInst.withLoad
  split <;> rfl

@[simp] theorem withLoad_rd : (ir.withLoad value).rd = ir.rd := by
  unfold IRInst.withLoad
  split <;> rfl

@[simp] theorem withLoad_itype : (ir.withLoad value).itype = ir.itype := by
  unfold IRInst.withLoad
  split <;> rfl

theorem withLoad_result (load : ir.itype = .load) : (ir.withLoad value).result = value := by
  unfold IRInst.withLoad
  rw [if_pos load]

theorem withLoad_other {ir : IRInst} (other : ir.itype ≠ .load) : ir.withLoad value = ir := if_neg other

end Load

theorem irWriteback_get (ir : IRInst) (gpr : RegFile) {r : Reg} (nonzero : r ≠ 0) :
    (irWriteback ir gpr).get r = if ir.rd = some r then ir.result else gpr.get r := by
  unfold irWriteback
  cases rd : ir.rd with
  | none => simp
  | some target =>
      simp only [Option.some.injEq]
      split
      · next same =>
          subst same
          exact RegFile.get_set_self _ _ nonzero
      · next other => exact RegFile.get_set_of_ne _ _ fun same => other same.symm

/-! ## Decoded records -/

theorem irDecode_idem (gpr : RegFile) (raw : Raw) (pc snpc : Word) (junk : IRInst) :
    irDecode gpr raw pc snpc (irDecode gpr raw pc snpc junk) = irDecode gpr raw pc snpc junk := by
  unfold irDecode irFillOperands
  obtain ⟨format, fn, serializing⟩ := irSelect raw
  cases format <;> rfl

/-- A decoded record takes the operands of another register file when its source registers are replaced. -/
theorem irDecode_operands (gpr gpr' : RegFile) (raw : Raw) (pc snpc : Word) (junk : IRInst) (src1 src2 : Word)
    (reads1 : ∀ r, (irDecode gpr raw pc snpc junk).rs1 = some r → src1 = gpr'.get r)
    (keeps1 : (irDecode gpr raw pc snpc junk).rs1 = none → src1 = (irDecode gpr raw pc snpc junk).src1Val)
    (reads2 : ∀ r, (irDecode gpr raw pc snpc junk).rs2 = some r → src2 = gpr'.get r)
    (keeps2 : (irDecode gpr raw pc snpc junk).rs2 = none → src2 = (irDecode gpr raw pc snpc junk).src2Val) :
    irDecode gpr' raw pc snpc { irDecode gpr raw pc snpc junk with src1Val := src1, src2Val := src2 } =
      { irDecode gpr raw pc snpc junk with src1Val := src1, src2Val := src2 } := by
  unfold irDecode irFillOperands at *
  cases format : (irSelect raw).1 <;> simp_all

/-- The registers an operand comes from hold zero if the register is `x0`. -/
theorem irDecode_zero (gpr : RegFile) (raw : Raw) (pc snpc : Word) (junk : IRInst) :
    ((irDecode gpr raw pc snpc junk).rs1 = some 0 → (irDecode gpr raw pc snpc junk).src1Val = 0) ∧
      ((irDecode gpr raw pc snpc junk).rs2 = some 0 → (irDecode gpr raw pc snpc junk).src2Val = 0) := by
  unfold irDecode irFillOperands
  obtain ⟨format, fn, serializing⟩ := irSelect raw
  cases format <;> simp +contextual

/-! ## System registers -/

/-- The registers that `core_cycle` saves for a hart, and the hart, are the same. -/
structure Sys.SameArch (sys sys' : Sys) : Prop where
  arch : ∀ cpu, CoreArch.save cpu sys' = CoreArch.save cpu sys
  hart : sys'.hartid = sys.hartid

theorem Sys.SameArch.refl (sys : Sys) : sys.SameArch sys := ⟨fun _ => rfl, rfl⟩

theorem Sys.SameArch.trans {sys sys' sys'' : Sys} (first : sys.SameArch sys') (second : sys'.SameArch sys'') :
    sys.SameArch sys'' := ⟨fun cpu => (second.arch cpu).trans (first.arch cpu), second.hart.trans first.hart⟩

section Fields

variable {sys sys' : Sys} (same : sys.SameArch sys')

include same

theorem Sys.SameArch.csr : sys'.csr = sys.csr := congrArg CoreArch.csr (same.arch ⟨.empty, 0⟩)

theorem Sys.SameArch.privLevel : sys'.privLevel = sys.privLevel := congrArg CoreArch.privLevel (same.arch ⟨.empty, 0⟩)

theorem Sys.SameArch.pmp : sys'.pmpcfg = sys.pmpcfg ∧ sys'.pmpaddr = sys.pmpaddr :=
  ⟨congrArg CoreArch.pmpcfg (same.arch ⟨.empty, 0⟩), congrArg CoreArch.pmpaddr (same.arch ⟨.empty, 0⟩)⟩

theorem Sys.SameArch.symm : sys'.SameArch sys := ⟨fun cpu => (same.arch cpu).symm, same.hart.symm⟩

end Fields

theorem Sys.SameArch.of_save {sys sys' : Sys} {cpu : CPUState} (arch : CoreArch.save cpu sys' = CoreArch.save cpu sys)
    (hart : sys'.hartid = sys.hartid) : sys.SameArch sys' := by
  refine ⟨fun cpu' => ?_, hart⟩
  simp only [CoreArch.save, CoreArch.mk.injEq, true_and] at arch ⊢
  exact arch

theorem Sys.SameArch.abort (sys : Sys) : sys.SameArch sys.abort := ⟨fun _ => rfl, rfl⟩

theorem Sys.Reported.sameArch {sys sys' : Sys} (reported : sys.Reported sys') : sys.SameArch sys' := by
  rcases reported with rfl | rfl
  · exact .refl _
  · exact .abort _

/-- Memory accesses leave the registers of the hart alone. -/
structure VMem.Tame {σ : Type} (vm : VMem σ) : Prop where
  ifetch : ∀ {w addr len value w'}, vm.ifetch w addr len = some (value, w') → w.sys.SameArch w'.sys
  read : ∀ {w addr len value w'}, vm.read w addr len = some (value, w') → w.sys.SameArch w'.sys
  readLevel : ∀ {w addr len level value w'}, vm.readLevel w addr len = some (level, value, w') → w.sys.SameArch w'.sys
  write : ∀ {w addr len data w'}, vm.write w addr len data = some w' → w.sys.SameArch w'.sys

theorem hierarchy_tame {δ : Type} (cfg : MemConfig δ) : (hierarchy cfg).Tame where
  ifetch := fun done => ((hierarchy_reports cfg).ifetch done).sameArch
  read := fun done => ((hierarchy_reports cfg).read done).sameArch
  readLevel := fun done => ((hierarchy_reports cfg).readLevel done).sameArch
  write := fun done => ((hierarchy_reports cfg).write done).sameArch

end Sustemu
