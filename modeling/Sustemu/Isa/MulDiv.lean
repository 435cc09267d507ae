import Sustemu.Isa.Decoded

/-!
# The multiplication and division extension

What the M extension defines for its thirteen instructions, and for which of
them and which operands decoding and execution give it. The divisions are host
divisions: where C leaves the quotient undefined the executors do too. The high
multiplications have no executors of their own.
-/

set_option autoImplicit false

namespace Sustemu

/-! ## The extension -/

inductive MulDiv where
  | mul | mulh | mulhsu | mulhu | div | divu | rem | remu
  | mulw | divw | divuw | remw | remuw
  deriving DecidableEq, Repr

/-- Quotient rounded toward zero: all ones for a zero divisor, the dividend on overflow. -/
def signedQuotient {w : Nat} (a b : BitVec w) : BitVec w :=
  if b = 0 then .allOnes w
  else if a = .intMin w ∧ b = -1 then a
  else .ofInt w (a.toInt.tdiv b.toInt)

/-- Remainder with the sign of the dividend: the dividend for a zero divisor, zero on overflow. -/
def signedRemainder {w : Nat} (a b : BitVec w) : BitVec w :=
  if b = 0 then a
  else if a = .intMin w ∧ b = -1 then 0
  else .ofInt w (a.toInt.tmod b.toInt)

def unsignedQuotient {w : Nat} (a b : BitVec w) : BitVec w :=
  if b = 0 then .allOnes w else .ofNat w (a.toNat / b.toNat)

def unsignedRemainder {w : Nat} (a b : BitVec w) : BitVec w :=
  if b = 0 then a else .ofNat w (a.toNat % b.toNat)

namespace MulDiv

/-- The result that the extension defines. -/
def value (op : MulDiv) (a b : Word) : Word :=
  match op with
  | .mul => .ofInt 64 (a.toInt * b.toInt)
  | .mulh => .ofInt 64 (a.toInt * b.toInt / 2 ^ 64)
  | .mulhsu => .ofInt 64 (a.toInt * b.toNat / 2 ^ 64)
  | .mulhu => .ofNat 64 (a.toNat * b.toNat / 2 ^ 64)
  | .div => signedQuotient a b
  | .divu => unsignedQuotient a b
  | .rem => signedRemainder a b
  | .remu => unsignedRemainder a b
  | .mulw => (BitVec.ofInt 32 ((low32 a).toInt * (low32 b).toInt)).signExtend 64
  | .divw => (signedQuotient (low32 a) (low32 b)).signExtend 64
  | .divuw => (unsignedQuotient (low32 a) (low32 b)).signExtend 64
  | .remw => (signedRemainder (low32 a) (low32 b)).signExtend 64
  | .remuw => (unsignedRemainder (low32 a) (low32 b)).signExtend 64

/-- `OP` or `OP-32`. -/
def opcode : MulDiv → Nat
  | .mulw | .divw | .divuw | .remw | .remuw => 0x3b
  | _ => 0x33

def funct3 : MulDiv → Nat
  | .mul | .mulw => 0
  | .mulh => 1
  | .mulhsu => 2
  | .mulhu => 3
  | .div | .divw => 4
  | .divu | .divuw => 5
  | .rem | .remw => 6
  | .remu | .remuw => 7

/-- The instruction words of an operation. -/
def Encodes (op : MulDiv) (raw : Raw) : Prop :=
  opcode7Of raw = op.opcode ∧ funct7Of raw = 1 ∧ funct3Of raw = op.funct3

instance (op : MulDiv) (raw : Raw) : Decidable (op.Encodes raw) := inferInstanceAs (Decidable (_ ∧ _))

/-! ## What the engines make of it -/

/-- The executor that `ir_decode` chooses. -/
def executor : MulDiv → ExecFn
  | .mul => .mul
  | .mulh | .mulhsu => .inv
  | .mulhu | .divu => .divu
  | .div => .div
  | .rem => .rem
  | .remu => .remu
  | .mulw => .mulw
  | .divw => .divw
  | .divuw => .divuw
  | .remw => .remw
  | .remuw => .remuw

theorem irSelect_eq {op : MulDiv} {raw : Raw} (encoded : op.Encodes raw) : irSelect raw = (.R, op.executor, false) := by
  obtain ⟨code, seven, three⟩ := encoded
  have five : opcodeOf raw = op.opcode / 4 := by
    rw [opcodeOf_eq, code]
  unfold irSelect
  cases op <;> simp only [five, seven, three, opcode, funct3, executor] <;> rfl

end MulDiv

/-- The 32-bit product of a `mulw` fits an `int32_t`, so that the host multiplication is defined. -/
def IRInst.mulDefined (ir : IRInst) : Bool :=
  match ir.execFn with
  | .mulw => decide (-2 ^ 31 ≤ (low32 ir.src1Val).toInt * (low32 ir.src2Val).toInt ∧
      (low32 ir.src1Val).toInt * (low32 ir.src2Val).toInt < 2 ^ 31)
  | _ => true

/-- Execution of `ir` gives the result of `op`, through host operations that C defines. -/
structure MulDiv.Conforms (op : MulDiv) (perf : Perf) (ir : IRInst) (sys : Sys) : Prop where
  executes : ∃ ir' sys', irExecute perf ir sys = some (ir', sys') ∧ ir'.fault = false ∧
    ir'.result = op.value ir.src1Val ir.src2Val
  host : ir.divDefined = true ∧ ir.mulDefined = true

/-- The operands for which an operation is executed as the extension defines it. -/
def MulDiv.HoldsOn (op : MulDiv) (a b : Word) : Prop :=
  match op with
  | .mul => True
  | .mulh | .mulhsu => False
  | .mulhu => b ≠ 0 ∧ a.toNat / b.toNat = a.toNat * b.toNat / 2 ^ 64
  | .div | .rem => b ≠ 0 ∧ ¬ (a = .intMin 64 ∧ b = -1)
  | .divu | .remu => b ≠ 0
  | .mulw => -2 ^ 31 ≤ (low32 a).toInt * (low32 b).toInt ∧ (low32 a).toInt * (low32 b).toInt < 2 ^ 31
  | .divw | .remw => low32 b ≠ 0 ∧ ¬ (low32 a = .intMin 32 ∧ low32 b = -1)
  | .divuw | .remuw => low32 b ≠ 0

/-! ## Host operations -/

section Host

variable {w : Nat} {a b : BitVec w}

theorem sdiv_eq_signedQuotient (nonzero : b ≠ 0) (fits : ¬ (a = .intMin w ∧ b = -1)) : a.sdiv b = signedQuotient a b := by
  rw [signedQuotient, if_neg nonzero, if_neg fits]
  apply BitVec.eq_of_toInt_eq
  rw [BitVec.toInt_sdiv, BitVec.toInt_ofInt]

theorem srem_eq_signedRemainder (nonzero : b ≠ 0) (fits : ¬ (a = .intMin w ∧ b = -1)) :
    a.srem b = signedRemainder a b := by
  rw [signedRemainder, if_neg nonzero, if_neg fits, ← BitVec.toInt_srem, BitVec.ofInt_toInt]

theorem udiv_eq_unsignedQuotient (nonzero : b ≠ 0) : a / b = unsignedQuotient a b := by
  rw [unsignedQuotient, if_neg nonzero, ← BitVec.toNat_udiv, BitVec.ofNat_toNat, BitVec.setWidth_eq]

theorem umod_eq_unsignedRemainder (nonzero : b ≠ 0) : a % b = unsignedRemainder a b := by
  rw [unsignedRemainder, if_neg nonzero, ← BitVec.toNat_umod, BitVec.ofNat_toNat, BitVec.setWidth_eq]

end Host

theorem toNat_mask32 (a : Word) : (a &&& mask32).toNat = (low32 a).toNat := by
  rw [BitVec.toNat_and, low32, BitVec.toNat_setWidth]
  exact Nat.and_two_pow_sub_one_eq_mod a.toNat 32

/-- The 64-bit quotient of two masked operands is the 32-bit quotient. -/
theorem sext_udiv_mask (a b : Word) : sext 32 ((a &&& mask32) / (b &&& mask32)) = (low32 a / low32 b).signExtend 64 := by
  unfold sext
  congr 1
  apply BitVec.eq_of_toNat_eq
  rw [BitVec.toNat_setWidth, BitVec.toNat_udiv, toNat_mask32, toNat_mask32, ← BitVec.toNat_udiv,
    Nat.mod_eq_of_lt (BitVec.isLt _)]

theorem sext_umod_mask (a b : Word) :
    sext 32 (((a &&& mask32) % (b &&& mask32)) &&& mask32) = (low32 a % low32 b).signExtend 64 := by
  unfold sext
  congr 1
  apply BitVec.eq_of_toNat_eq
  rw [BitVec.toNat_setWidth, toNat_mask32, low32, BitVec.toNat_setWidth, BitVec.toNat_umod, toNat_mask32, toNat_mask32,
    ← BitVec.toNat_umod, Nat.mod_eq_of_lt (BitVec.isLt _), Nat.mod_eq_of_lt (BitVec.isLt _)]

/-! ## Conformance -/

/-- An executor that computes `compute` conforms when it computes the right value from defined operands. -/
theorem MulDiv.conforms_alu {op : MulDiv} {perf : Perf} {ir : IRInst} {sys : Sys} {compute : Word → Word → Word}
    (executor : ir.execFn.pure = some (irExecAlu compute)) (sound : ir.fault = false) :
    op.Conforms perf ir sys ↔ compute ir.src1Val ir.src2Val = op.value ir.src1Val ir.src2Val ∧
      ir.divDefined = true ∧ ir.mulDefined = true := by
  have run : irExecute perf ir sys = some (irExecAlu compute ir, sys) := by
    unfold irExecute
    rw [executor]
  constructor
  · rintro ⟨⟨ir', sys', executed, _, result⟩, host⟩
    cases run.symm.trans executed
    exact ⟨result, host⟩
  · rintro ⟨result, host⟩
    exact ⟨⟨_, _, run, sound, result⟩, host⟩

/-- A host division conforms when its operands are defined, if it then computes the right value. -/
theorem MulDiv.conforms_division {op : MulDiv} {perf : Perf} {ir : IRInst} {sys : Sys} {compute : Word → Word → Word}
    (executor : ir.execFn.pure = some (irExecAlu compute)) (sound : ir.fault = false)
    (defined : (ir.divDefined = true ∧ ir.mulDefined = true) ↔ op.HoldsOn ir.src1Val ir.src2Val)
    (right : op.HoldsOn ir.src1Val ir.src2Val → compute ir.src1Val ir.src2Val = op.value ir.src1Val ir.src2Val) :
    op.Conforms perf ir sys ↔ op.HoldsOn ir.src1Val ir.src2Val := by
  rw [conforms_alu executor sound, defined]
  exact ⟨fun both => both.2, fun holds => ⟨right holds, holds⟩⟩

theorem MulDiv.conforms_iff {op : MulDiv} {perf : Perf} {ir : IRInst} {sys : Sys} (fn : ir.execFn = op.executor)
    (sound : ir.fault = false) : op.Conforms perf ir sys ↔ op.HoldsOn ir.src1Val ir.src2Val := by
  have min64 : (0x8000000000000000 : Word) = .intMin 64 := by decide
  have min32 : (0x80000000 : BitVec 32) = .intMin 32 := by decide
  cases op with
  | mulh | mulhsu =>
      -- an invalid instruction faults, whatever its operands
      refine ⟨?_, nofun⟩
      rintro ⟨⟨ir', sys', executed, valid, _⟩, _⟩
      rw [irExecute_inv executed fn] at valid
      cases valid
  | mul =>
      rw [conforms_alu (by rw [fn]; rfl) sound]
      simp [IRInst.divDefined, IRInst.mulDefined, fn, executor, HoldsOn, value, BitVec.ofInt_mul]
  | mulw =>
      rw [conforms_alu (by rw [fn]; rfl) sound]
      simp [IRInst.divDefined, IRInst.mulDefined, fn, executor, HoldsOn, value, BitVec.ofInt_mul]
  | mulhu =>
      -- the slot is executed as an unsigned division
      rw [conforms_alu (by rw [fn]; rfl) sound]
      simp only [IRInst.divDefined, IRInst.mulDefined, fn, executor, HoldsOn, value, bne_iff_ne, and_true]
      have same : ir.src1Val / ir.src2Val = .ofNat 64 (ir.src1Val.toNat * ir.src2Val.toNat / 2 ^ 64) ↔
          ir.src1Val.toNat / ir.src2Val.toNat = ir.src1Val.toNat * ir.src2Val.toNat / 2 ^ 64 := by
        have small : ir.src1Val.toNat * ir.src2Val.toNat / 2 ^ 64 < 2 ^ 64 := by
          apply Nat.div_lt_of_lt_mul
          exact Nat.mul_lt_mul_of_lt_of_lt ir.src1Val.isLt ir.src2Val.isLt
        rw [BitVec.toNat_eq, BitVec.toNat_udiv, BitVec.toNat_ofNat, Nat.mod_eq_of_lt small]
      rw [same]
      exact And.comm
  | div =>
      refine conforms_division (by rw [fn]; rfl) sound ?_ fun holds => sdiv_eq_signedQuotient holds.1 holds.2
      simp [IRInst.divDefined, IRInst.mulDefined, fn, executor, HoldsOn, min64]
      exact fun _ => imp_iff_not_or.symm
  | rem =>
      refine conforms_division (by rw [fn]; rfl) sound ?_ fun holds => srem_eq_signedRemainder holds.1 holds.2
      simp [IRInst.divDefined, IRInst.mulDefined, fn, executor, HoldsOn, min64]
      exact fun _ => imp_iff_not_or.symm
  | divu =>
      refine conforms_division (by rw [fn]; rfl) sound ?_ udiv_eq_unsignedQuotient
      simp [IRInst.divDefined, IRInst.mulDefined, fn, executor, HoldsOn]
  | remu =>
      refine conforms_division (by rw [fn]; rfl) sound ?_ umod_eq_unsignedRemainder
      simp [IRInst.divDefined, IRInst.mulDefined, fn, executor, HoldsOn]
  | divw =>
      refine conforms_division (by rw [fn]; rfl) sound ?_ fun holds =>
        congrArg (BitVec.signExtend 64) (sdiv_eq_signedQuotient holds.1 holds.2)
      simp [IRInst.divDefined, IRInst.mulDefined, fn, executor, HoldsOn, min32]
      exact fun _ => imp_iff_not_or.symm
  | remw =>
      refine conforms_division (by rw [fn]; rfl) sound ?_ fun holds =>
        congrArg (BitVec.signExtend 64) (srem_eq_signedRemainder holds.1 holds.2)
      simp [IRInst.divDefined, IRInst.mulDefined, fn, executor, HoldsOn, min32]
      exact fun _ => imp_iff_not_or.symm
  | divuw =>
      refine conforms_division (by rw [fn]; rfl) sound ?_ fun holds =>
        (sext_udiv_mask _ _).trans (congrArg (BitVec.signExtend 64) (udiv_eq_unsignedQuotient holds))
      simp [IRInst.divDefined, IRInst.mulDefined, fn, executor, HoldsOn]
  | remuw =>
      refine conforms_division (by rw [fn]; rfl) sound ?_ fun holds =>
        (sext_umod_mask _ _).trans (congrArg (BitVec.signExtend 64) (umod_eq_unsignedRemainder holds))
      simp [IRInst.divDefined, IRInst.mulDefined, fn, executor, HoldsOn]

/-- A decoded M instruction, executed on the operands `a` and `b`, conforms to the extension exactly when it is not
a high multiplication, apart from quotients that happen to equal a high half, and the host operation is defined. -/
theorem rv64m_conforms_iff (op : MulDiv) (raw : Raw) (encoded : op.Encodes raw) (gpr : RegFile) (pc : Word)
    (stack : IRInst) (perf : Perf) (sys : Sys) (a b : Word) :
    op.Conforms perf { irDecode gpr raw pc (pc + 4) stack with src1Val := a, src2Val := b } sys ↔ op.HoldsOn a b := by
  obtain ⟨fetched, _, same⟩ := irDecode_fetched gpr raw pc stack
  have fn : (irDecode gpr raw pc (pc + 4) stack).execFn = op.executor := by
    rw [fetched.decoded.fn, same, MulDiv.irSelect_eq encoded]
  let ir : IRInst := { irDecode gpr raw pc (pc + 4) stack with src1Val := a, src2Val := b }
  exact MulDiv.conforms_iff (show ir.execFn = op.executor from fn) fetched.fault

/-- `mul x3, x1, x2`. -/
theorem rv64m_conforms_mul : MulDiv.mul.Conforms .zero
    { irDecode .empty 0x022081b3 mbase (mbase + 4) .zero with src1Val := 6, src2Val := 7 } Sys.init :=
  (rv64m_conforms_iff .mul 0x022081b3 (by decide) .empty mbase .zero .zero Sys.init 6 7).mpr trivial

/-- `mulhu x3, x1, x2` divides. -/
theorem mulhu_divides : MulDiv.mulhu.Encodes 0x0220b1b3 ∧
    (irExecute .zero { irDecode .empty 0x0220b1b3 mbase (mbase + 4) .zero with src1Val := 6, src2Val := 2 }
      Sys.init).map (fun executed => executed.1.result) = some 3 ∧
    MulDiv.mulhu.value 6 2 = 0 ∧
    ¬ MulDiv.mulhu.Conforms .zero
      { irDecode .empty 0x0220b1b3 mbase (mbase + 4) .zero with src1Val := 6, src2Val := 2 } Sys.init := by
  refine ⟨by decide, by decide, by decide, ?_⟩
  rintro ⟨⟨ir', sys', executed, _, result⟩, _⟩
  cases executed
  exact absurd result (by decide)

end Sustemu
