import Sustemu.Isa.Exec

/-!
# Decoded instructions through execution

What decoding fixes from the instruction word alone, and what the executors
leave alone. A record reused by `ir_decode` may hold anything in the fields an
encoding does not set; `Decoded` says nothing about those.
-/

set_option autoImplicit false

namespace Sustemu

open Lib

/-! ## Fields determined by the instruction word -/

def rdOf (raw : Raw) : Option Reg :=
  match (irSelect raw).1 with
  | .I | .U | .J | .R => some (regField raw 7)
  | .S | .B | .N => none

def rs1Of (raw : Raw) : Option Reg :=
  match (irSelect raw).1 with
  | .I | .S | .R | .B => some (regField raw 15)
  | .U | .J | .N => none

def rs2Of (raw : Raw) : Option Reg :=
  match (irSelect raw).1 with
  | .S | .R | .B => some (regField raw 20)
  | .I | .U | .J | .N => none

/-- The first operand where it is an immediate. -/
def src1Of (raw : Raw) : Option Word :=
  match (irSelect raw).1 with
  | .U => some (immU raw)
  | .J => some (immJ raw)
  | .I | .S | .R | .B | .N => none

/-- The second operand where it is an immediate. -/
def src2Of (raw : Raw) : Option Word :=
  match (irSelect raw).1 with
  | .I => some (immI raw)
  | .U | .J | .S | .R | .B | .N => none

def immOf (raw : Raw) : Option Word :=
  match (irSelect raw).1 with
  | .S => some (immS raw)
  | .B => some (immB raw)
  | .I | .U | .J | .R | .N => none

/-- The record belongs to its instruction word, before or after execution. -/
structure IRInst.Decoded (ir : IRInst) : Prop where
  snpc : ir.snpc = ir.pc + 4
  fn : ir.execFn = (irSelect ir.raw).2.1
  rs1 : ir.rs1 = rs1Of ir.raw
  rs2 : ir.rs2 = rs2Of ir.raw
  src1 : ∀ value ∈ src1Of ir.raw, ir.src1Val = value
  src2 : ∀ value ∈ src2Of ir.raw, ir.src2Val = value
  imm : ∀ value ∈ immOf ir.raw, ir.imm = value
  width : ir.memWidth ≤ 8
  blank : ir.execFn = .inv → ir.memAddr = 0

/-- The record as decoding leaves it. -/
structure IRInst.Fetched (ir : IRInst) : Prop where
  decoded : ir.Decoded
  rd : ir.rd = rdOf ir.raw
  serializing : ir.serializing = (irSelect ir.raw).2.2
  fault : ir.fault = false
  itype : ir.itype = .invalid
  dnpc : ir.dnpc = ir.snpc

theorem irDecode_fetched (gpr : RegFile) (raw : Raw) (pc : Word) (junk : IRInst) :
    (irDecode gpr raw pc (pc + 4) junk).Fetched ∧ (irDecode gpr raw pc (pc + 4) junk).pc = pc ∧
      (irDecode gpr raw pc (pc + 4) junk).raw = raw := by
  unfold irDecode irFillOperands
  cases format : (irSelect raw).1 with
  | I | U | S | J | R | B | N =>
      simp only [format]
      refine ⟨⟨⟨rfl, rfl, ?_, ?_, ?_, ?_, ?_, Nat.zero_le 8, fun _ => rfl⟩, ?_, rfl, rfl, rfl, rfl⟩, ?_, ?_⟩ <;>
        simp [rs1Of, rs2Of, src1Of, src2Of, immOf, rdOf, format]

/-! ## Execution -/

/-- Two records of one instruction that differ at most in what execution computes. -/
structure IRInst.SameInst (ir ir' : IRInst) : Prop where
  pc : ir'.pc = ir.pc
  snpc : ir'.snpc = ir.snpc
  raw : ir'.raw = ir.raw
  rs1 : ir'.rs1 = ir.rs1
  rs2 : ir'.rs2 = ir.rs2
  imm : ir'.imm = ir.imm
  execFn : ir'.execFn = ir.execFn
  bpPredictedPc : ir'.bpPredictedPc = ir.bpPredictedPc
  width : ir.memWidth ≤ 8 → ir'.memWidth ≤ 8
  blank : ir.execFn = .inv → ir'.memAddr = ir.memAddr

theorem IRInst.SameInst.refl (ir : IRInst) : ir.SameInst ir := ⟨rfl, rfl, rfl, rfl, rfl, rfl, rfl, rfl, id, fun _ => rfl⟩

theorem IRInst.SameInst.trans {ir ir' ir'' : IRInst} (first : ir.SameInst ir') (second : ir'.SameInst ir'') :
    ir.SameInst ir'' :=
  ⟨second.pc.trans first.pc, second.snpc.trans first.snpc, second.raw.trans first.raw, second.rs1.trans first.rs1,
    second.rs2.trans first.rs2, second.imm.trans first.imm, second.execFn.trans first.execFn,
    second.bpPredictedPc.trans first.bpPredictedPc, fun narrow => second.width (first.width narrow),
    fun invalid => (second.blank (first.execFn.trans invalid)).trans (first.blank invalid)⟩

/-- New operands keep a record decoded when immediates stay what they were. -/
theorem IRInst.Decoded.sameInst {ir ir' : IRInst} (decoded : ir.Decoded) (same : ir.SameInst ir')
    (src1 : ir.rs1 = none → ir'.src1Val = ir.src1Val) (src2 : ir.rs2 = none → ir'.src2Val = ir.src2Val) :
    ir'.Decoded where
  snpc := by rw [same.snpc, same.pc]; exact decoded.snpc
  fn := by rw [same.execFn, same.raw]; exact decoded.fn
  rs1 := by rw [same.rs1, same.raw]; exact decoded.rs1
  rs2 := by rw [same.rs2, same.raw]; exact decoded.rs2
  src1 := by
    intro value immediate
    rw [same.raw] at immediate
    rw [src1 ?_]
    · exact decoded.src1 value immediate
    · rw [decoded.rs1, rs1Of]
      rw [src1Of] at immediate
      cases format : (irSelect ir.raw).1 <;> simp_all
  src2 := by
    intro value immediate
    rw [same.raw] at immediate
    rw [src2 ?_]
    · exact decoded.src2 value immediate
    · rw [decoded.rs2, rs2Of]
      rw [src2Of] at immediate
      cases format : (irSelect ir.raw).1 <;> simp_all
  imm := by rw [same.raw, same.imm]; exact decoded.imm
  width := same.width decoded.width
  blank := by
    rw [same.execFn]
    exact fun invalid => (same.blank invalid).trans (decoded.blank invalid)

/-- An executor keeps the instruction and its operands. -/
theorem pure_sameInst (ir : IRInst) {run : IRInst → IRInst} (executor : ir.execFn.pure = some run) :
    ir.SameInst (run ir) ∧ (run ir).src1Val = ir.src1Val ∧ (run ir).src2Val = ir.src2Val := by
  cases fn : ir.execFn <;> rw [fn] at executor <;>
    first
    | cases executor; exact ⟨⟨rfl, rfl, rfl, rfl, rfl, rfl, rfl, rfl, id, fun _ => rfl⟩, rfl, rfl⟩
    | cases executor
      exact ⟨⟨rfl, rfl, rfl, rfl, rfl, rfl, rfl, rfl, fun _ => Nat.le_of_ble_eq_true rfl,
        fun invalid => nomatch fn.symm.trans invalid⟩, rfl, rfl⟩
    | cases executor

theorem irExecute_sameInst {perf : Perf} {ir ir' : IRInst} {sys sys' : Sys}
    (executed : irExecute perf ir sys = some (ir', sys')) :
    ir.SameInst ir' ∧ ir'.src1Val = ir.src1Val ∧ ir'.src2Val = ir.src2Val := by
  unfold irExecute at executed
  split at executed
  · next run executor =>
      cases executed
      exact pure_sameInst ir executor
  · split at executed
    · obtain ⟨_, _, same⟩ := Option.map_eq_some_iff.mp executed
      cases same
      exact ⟨⟨rfl, rfl, rfl, rfl, rfl, rfl, rfl, rfl, id, fun _ => rfl⟩, rfl, rfl⟩
    · obtain ⟨_, _, same⟩ := Option.map_eq_some_iff.mp executed
      cases same
      exact ⟨⟨rfl, rfl, rfl, rfl, rfl, rfl, rfl, rfl, id, fun _ => rfl⟩, rfl, rfl⟩
    · obtain ⟨_, _, same⟩ := Option.map_eq_some_iff.mp executed
      cases same
      exact ⟨⟨rfl, rfl, rfl, rfl, rfl, rfl, rfl, rfl, id, fun _ => rfl⟩, rfl, rfl⟩
    · cases executed
      exact ⟨⟨rfl, rfl, rfl, rfl, rfl, rfl, rfl, rfl, id, fun _ => rfl⟩, rfl, rfl⟩
    · obtain ⟨_, _, same⟩ := Option.map_eq_some_iff.mp executed
      cases same
      exact ⟨⟨rfl, rfl, rfl, rfl, rfl, rfl, rfl, rfl, id, fun _ => rfl⟩, rfl, rfl⟩
    · cases executed
      exact ⟨⟨rfl, rfl, rfl, rfl, rfl, rfl, rfl, rfl, id, fun _ => rfl⟩, rfl, rfl⟩
    · cases executed
      exact ⟨.refl _, rfl, rfl⟩

/-- Execution does not depend on what an earlier execution of the same record left behind. -/
theorem pure_idempotent {fn : ExecFn} {run : IRInst → IRInst} (executor : fn.pure = some run) (ir : IRInst) :
    run (run ir) = run ir := by
  cases fn <;> first | cases executor; rfl | cases executor

/-- The class an executor gives its instruction. -/
def ExecFn.itype : ExecFn → IRInstType
  | .auipc => .auipc
  | .lui => .lui
  | .jal => .jal
  | .jalr => .jalr
  | .beq | .bne | .blt | .bge | .bltu | .bgeu => .branch
  | .ld | .lw | .lh | .lb | .lwu | .lhu | .lbu => .load
  | .sd | .sw | .sh | .sb => .store
  | .csrrw | .csrrs | .csrrc => .csr
  | .ecall | .mret | .ebreak => .system
  | .fence => .fence
  | .inv => .invalid
  | _ => .alu

theorem pure_itype {fn : ExecFn} {run : IRInst → IRInst} (executor : fn.pure = some run) (ir : IRInst) :
    (run ir).itype = fn.itype := by
  cases fn <;> first | cases executor; rfl | cases executor

/-! ## Classes of instruction words -/

/-- The executors of each operand format, with whether they are serialising. -/
def executors : List (OperandType × Bool × List ExecFn) :=
  [ (.I, false, [.addi, .ori, .xori, .andi, .slti, .sltiu, .slli, .srai, .srli, .lbu, .lb, .lw, .ld, .lh, .lhu, .lwu,
      .jalr, .addiw, .slliw, .sraiw, .srliw, .inv]),
    (.I, true, [.csrrw, .csrrs, .csrrc]),
    (.S, false, [.sb, .sh, .sw, .sd, .inv]),
    (.B, false, [.beq, .bne, .blt, .bge, .bltu, .bgeu, .inv]),
    (.R, false, [.add, .sub, .mul, .or, .rem, .xor, .div, .and, .remu, .slt, .sltu, .divu, .sll, .srl, .sra, .addw,
      .subw, .mulw, .sllw, .srlw, .sraw, .divuw, .divw, .remw, .remuw, .inv]),
    (.J, false, [.jal]),
    (.U, false, [.auipc, .lui]),
    (.N, true, [.ecall, .mret, .ebreak, .fence]),
    (.N, false, [.inv]) ]

/-- Everything the opcode dispatch can answer. -/
def selections : List (OperandType × ExecFn × Bool) :=
  executors.flatMap fun group => group.2.2.map fun fn => (group.1, fn, group.2.1)

theorem irSelect_mem (raw : Raw) : irSelect raw ∈ selections := by
  unfold irSelect
  simp only
  split <;> (try split) <;> (try split) <;> (try split) <;> (try split) <;> decide +kernel

theorem irSelect_store {raw : Raw} (store : (irSelect raw).2.1.itype = .store) : (irSelect raw).1 = .S := by
  have table : ∀ selected ∈ selections, selected.2.1.itype = .store → selected.1 = .S := by decide +kernel
  exact table _ (irSelect_mem raw) store

theorem opcodeOf_eq (raw : Raw) : opcodeOf raw = opcode7Of raw / 4 := by
  unfold opcodeOf opcode7Of
  simp only [BitVec.extractLsb'_toNat, Nat.shiftRight_eq_div_pow]
  omega

/-- The opcodes of branches and jumps, for which the predictor is asked. -/
def controlOpcode (raw : Raw) : Bool := opcodeOf raw == 0x18 || opcodeOf raw == 0x1b || opcodeOf raw == 0x19

/-- The executors of branches and jumps. -/
def ExecFn.isControl (fn : ExecFn) : Bool := fn.itype == .branch || fn.itype == .jal || fn.itype == .jalr

theorem controlOpcode_of_isControl {raw : Raw} (control : (irSelect raw).2.1.isControl = true) :
    controlOpcode raw = true := by
  cases opcode : controlOpcode raw with
  | true => rfl
  | false =>
      have others : opcodeOf raw ≠ 0x18 ∧ opcodeOf raw ≠ 0x1b ∧ opcodeOf raw ≠ 0x19 := by
        simpa [controlOpcode, and_assoc] using opcode
      have straight : (irSelect raw).2.1.isControl = false := by
        unfold irSelect
        simp only
        split <;> first | exact absurd ‹_› others.1 | exact absurd ‹_› others.2.1 | exact absurd ‹_› others.2.2 | skip
        all_goals (try split) <;> (try split) <;> (try split) <;> (try split) <;> rfl
      rw [straight] at control
      cases control

/-- A control opcode has a branch or jump executor, unless the word is malformed. -/
theorem isControl_of_controlOpcode {raw : Raw} (control : controlOpcode raw = true) :
    (irSelect raw).2.1.isControl = true ∨ (irSelect raw).2.1 = .inv := by
  simp only [controlOpcode, Bool.or_eq_true, beq_iff_eq] at control
  unfold irSelect
  rcases control with (branch | jal) | jalr
  · simp only [branch]
    split <;> first | exact .inl rfl | exact .inr rfl
  · simp only [jal]
    exact .inl rfl
  · simp only [jalr]
    exact .inl rfl

/-- The executors of loads, stores and malformed words of their opcodes. -/
def ExecFn.isMemory : ExecFn → Bool
  | .ld | .lw | .lh | .lb | .lwu | .lhu | .lbu | .sd | .sw | .sh | .sb | .inv => true
  | _ => false

theorem isMemory_of_opcode {raw : Raw} (memory : opcode7Of raw = 0x03 ∨ opcode7Of raw = 0x23) :
    (irSelect raw).2.1.isMemory = true := by
  have opcode : opcodeOf raw = 0x00 ∨ opcodeOf raw = 0x08 := by
    rw [opcodeOf_eq]
    omega
  unfold irSelect
  rcases opcode with load | store
  · simp only [load]
    split <;> rfl
  · simp only [store]
    split <;> rfl

theorem ExecFn.isMemory_pure {fn : ExecFn} (memory : fn.isMemory = true) : ∃ run, fn.pure = some run := by
  cases fn <;> first | exact ⟨_, rfl⟩ | cases memory

/-- The next program counter of an executor that does not transfer control. -/
theorem pure_dnpc {fn : ExecFn} {run : IRInst → IRInst} (executor : fn.pure = some run)
    (straight : fn.isControl = false) (ir : IRInst) : (run ir).dnpc = ir.snpc := by
  cases fn <;> first | cases executor; rfl | exact absurd straight (by decide) | cases executor

theorem irExecute_itype {perf : Perf} {ir ir' : IRInst} {sys sys' : Sys}
    (executed : irExecute perf ir sys = some (ir', sys')) : ir'.itype = ir.execFn.itype := by
  unfold irExecute at executed
  cases fn : ir.execFn <;> simp only [fn, ExecFn.pure] at executed <;>
    first
    | cases executed; rfl
    | obtain ⟨_, _, same⟩ := Option.map_eq_some_iff.mp executed
      cases same
      rfl

theorem pure_load {fn : ExecFn} {run : IRInst → IRInst} (executor : fn.pure = some run) (load : fn.itype = .load)
    (ir : IRInst) : (run ir).memWidth = 1 ∨ (run ir).memWidth = 2 ∨ (run ir).memWidth = 4 ∨ (run ir).memWidth = 8 := by
  cases fn <;>
    first
    | cases executor; exact .inl rfl
    | cases executor; exact .inr (.inl rfl)
    | cases executor; exact .inr (.inr (.inl rfl))
    | cases executor; exact .inr (.inr (.inr rfl))
    | cases load

theorem opcode7Of_load {raw : Raw} (memory : opcode7Of raw = 0x03 ∨ opcode7Of raw = 0x23)
    (load : (irSelect raw).2.1.itype = .load) : opcode7Of raw = 0x03 := by
  rcases memory with isLoad | isStore
  · exact isLoad
  · have opcode : opcodeOf raw = 0x08 := by
      rw [opcodeOf_eq, isStore]
    unfold irSelect at load
    simp only [opcode] at load
    split at load <;> cases load

theorem opcode7Of_store {raw : Raw} (memory : opcode7Of raw = 0x03 ∨ opcode7Of raw = 0x23)
    (store : (irSelect raw).2.1.itype = .store) : opcode7Of raw = 0x23 := by
  rcases memory with isLoad | isStore
  · have opcode : opcodeOf raw = 0x00 := by
      rw [opcodeOf_eq, isLoad]
    unfold irSelect at store
    simp only [opcode] at store
    split at store <;> cases store
  · exact isStore

/-- Only branches, jumps and system instructions leave the straight line. -/
theorem irExecute_dnpc {perf : Perf} {ir ir' : IRInst} {sys sys' : Sys}
    (executed : irExecute perf ir sys = some (ir', sys')) (straight : ir.execFn.isControl = false)
    (ordinary : ir.execFn.itype ≠ .system) : ir'.dnpc = ir.snpc := by
  unfold irExecute at executed
  cases fn : ir.execFn <;> simp only [fn, ExecFn.pure] at executed straight ordinary <;>
    first
    | cases executed; rfl
    | exact absurd straight (by decide)
    | exact absurd rfl ordinary
    | obtain ⟨_, _, same⟩ := Option.map_eq_some_iff.mp executed
      cases same
      rfl

theorem irExecute_inv {perf : Perf} {ir ir' : IRInst} {sys sys' : Sys}
    (executed : irExecute perf ir sys = some (ir', sys')) (malformed : ir.execFn = .inv) : ir'.fault = true := by
  unfold irExecute at executed
  rw [malformed] at executed
  cases executed
  rfl

/-- Instructions other than `ebreak` change the globals through the CSRs only. -/
theorem Sys.Closed.irExecute {P : Sys → Prop} (closed : Sys.Closed P) {perf : Perf} {ir ir' : IRInst} {sys sys' : Sys}
    (holds : P sys) (halted : ir.execFn = .ebreak → P { sys with state := .end })
    (executed : irExecute perf ir sys = some (ir', sys')) : P sys' := by
  have csrrm : ∀ {combine}, irExecCsrrm combine perf ir sys = some (ir', sys') → P sys' := by
    intro combine executed
    obtain ⟨⟨_, after⟩, read, same⟩ := Option.map_eq_some_iff.mp executed
    cases same
    have kept := closed.readCsr holds read
    split
    · exact closed.setCsr kept _ _
    · exact kept
  unfold Sustemu.irExecute at executed
  split at executed
  · cases executed
    exact holds
  · split at executed
    · obtain ⟨⟨_, after⟩, read, same⟩ := Option.map_eq_some_iff.mp executed
      cases same
      apply closed.setCsr
      split at read
      · exact closed.readCsr holds read
      · cases read
        exact holds
    · exact csrrm executed
    · exact csrrm executed
    · cases executed
      exact closed.registers holds _ _ _
    · obtain ⟨⟨_, after⟩, read, same⟩ := Option.map_eq_some_iff.mp executed
      cases same
      exact closed.registers (closed.readCsr holds read) _ _ _
    · next fn =>
        cases executed
        exact halted fn
    · cases executed
      exact holds

theorem irExecute_fixed {perf : Perf} {ir ir' : IRInst} {sys sys' : Sys}
    (executed : irExecute perf ir sys = some (ir', sys')) : sys'.fixed = sys.fixed :=
  (Sys.closed_fixed sys.fixed).irExecute rfl (fun _ => rfl) executed

theorem irExecute_hartid {perf : Perf} {ir ir' : IRInst} {sys sys' : Sys}
    (executed : irExecute perf ir sys = some (ir', sys')) : sys'.hartid = sys.hartid :=
  congrArg Prod.fst (irExecute_fixed executed)

/-- Stores and branches have no destination. -/
theorem rdOf_eq_none {raw : Raw} (kind : (irSelect raw).2.1.itype = .store ∨ (irSelect raw).2.1.itype = .branch) :
    rdOf raw = none := by
  have table : ∀ selected ∈ selections, selected.2.1.itype = .store ∨ selected.2.1.itype = .branch →
      selected.1 = .S ∨ selected.1 = .B := by decide +kernel
  unfold rdOf
  rcases table _ (irSelect_mem raw) kind with format | format <;> rw [format]

end Sustemu
