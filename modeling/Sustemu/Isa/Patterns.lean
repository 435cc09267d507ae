import Mathlib.Tactic.IntervalCases
import Mathlib.Algebra.Order.SuccPred
import Mathlib.Data.Nat.SuccPred
import Sustemu.Isa.Decoded

/-!
# The pattern table

`inst_table.inc` lists the instructions as patterns of bits, and the first row
that matches a word decides. `ir_decode` dispatches on three fields of the word
instead. Here are the table, its rows in terms of those fields, and the words for
which the dispatch chooses executor and operand format of the table.
-/

set_option autoImplicit false

namespace Sustemu

/-- The characters `0`, `1` and `?` of a pattern. -/
inductive PatChar where
  | o | i | x
  deriving DecidableEq, Repr

/-- The character loop of `pattern_decode`. -/
def patternLoop : List PatChar → Nat → Nat → Nat → Nat × Nat × Nat
  | [], key, mask, shift => (key >>> shift, mask >>> shift, shift)
  | .o :: rest, key, mask, _ => patternLoop rest (2 * key) (2 * mask + 1) 0
  | .i :: rest, key, mask, _ => patternLoop rest (2 * key + 1) (2 * mask + 1) 0
  | .x :: rest, key, mask, shift => patternLoop rest (2 * key) (2 * mask) (shift + 1)

/-- `pattern_decode`: key, mask and shift of a pattern. -/
def patternDecode (pattern : List PatChar) : Nat × Nat × Nat := patternLoop pattern 0 0 0

/-- A row of the table. The two fences have one executor. -/
structure InstPat where
  pattern : List PatChar
  fn : ExecFn
  type : OperandType

/-- The test of `INSTPAT`. -/
def keyMatches (raw : Raw) (decoded : Nat × Nat × Nat) : Bool :=
  (raw.toNat &&& decoded.2.1) >>> decoded.2.2 == decoded.1

open PatChar in
def instTable : List InstPat :=
  [ ⟨[x,x,x,x,x,x,x, x,x,x,x,x, x,x,x,x,x, x,x,x, x,x,x,x,x, o,o,i,o,i, i,i], .auipc, .U⟩,
    ⟨[x,x,x,x,x,x,x, x,x,x,x,x, x,x,x,x,x, x,x,x, x,x,x,x,x, o,i,i,o,i, i,i], .lui, .U⟩,
    ⟨[o,o,o,o,o,o,o, x,x,x,x,x, x,x,x,x,x, o,o,o, x,x,x,x,x, o,i,i,o,o, i,i], .add, .R⟩,
    ⟨[o,o,o,o,o,o,i, x,x,x,x,x, x,x,x,x,x, o,o,o, x,x,x,x,x, o,i,i,o,o, i,i], .mul, .R⟩,
    ⟨[o,i,o,o,o,o,o, x,x,x,x,x, x,x,x,x,x, o,o,o, x,x,x,x,x, o,i,i,o,o, i,i], .sub, .R⟩,
    ⟨[o,o,o,o,o,o,o, x,x,x,x,x, x,x,x,x,x, i,i,o, x,x,x,x,x, o,i,i,o,o, i,i], .or, .R⟩,
    ⟨[o,o,o,o,o,o,o, x,x,x,x,x, x,x,x,x,x, i,o,o, x,x,x,x,x, o,i,i,o,o, i,i], .xor, .R⟩,
    ⟨[o,o,o,o,o,o,o, x,x,x,x,x, x,x,x,x,x, i,i,i, x,x,x,x,x, o,i,i,o,o, i,i], .and, .R⟩,
    ⟨[o,o,o,o,o,o,o, x,x,x,x,x, x,x,x,x,x, o,i,o, x,x,x,x,x, o,i,i,o,o, i,i], .slt, .R⟩,
    ⟨[o,o,o,o,o,o,o, x,x,x,x,x, x,x,x,x,x, o,i,i, x,x,x,x,x, o,i,i,o,o, i,i], .sltu, .R⟩,
    ⟨[o,o,o,o,o,o,o, x,x,x,x,x, x,x,x,x,x, o,o,i, x,x,x,x,x, o,i,i,o,o, i,i], .sll, .R⟩,
    ⟨[o,o,o,o,o,o,o, x,x,x,x,x, x,x,x,x,x, i,o,i, x,x,x,x,x, o,i,i,o,o, i,i], .srl, .R⟩,
    ⟨[o,i,o,o,o,o,o, x,x,x,x,x, x,x,x,x,x, i,o,i, x,x,x,x,x, o,i,i,o,o, i,i], .sra, .R⟩,
    ⟨[o,o,o,o,o,o,i, x,x,x,x,x, x,x,x,x,x, i,o,o, x,x,x,x,x, o,i,i,o,o, i,i], .div, .R⟩,
    ⟨[o,o,o,o,o,o,i, x,x,x,x,x, x,x,x,x,x, i,o,i, x,x,x,x,x, o,i,i,o,o, i,i], .divu, .R⟩,
    ⟨[o,o,o,o,o,o,i, x,x,x,x,x, x,x,x,x,x, i,i,o, x,x,x,x,x, o,i,i,o,o, i,i], .rem, .R⟩,
    ⟨[o,o,o,o,o,o,i, x,x,x,x,x, x,x,x,x,x, i,i,i, x,x,x,x,x, o,i,i,o,o, i,i], .remu, .R⟩,
    ⟨[o,o,o,o,o,o,o, x,x,x,x,x, x,x,x,x,x, o,o,o, x,x,x,x,x, o,i,i,i,o, i,i], .addw, .R⟩,
    ⟨[o,o,o,o,o,o,i, x,x,x,x,x, x,x,x,x,x, o,o,o, x,x,x,x,x, o,i,i,i,o, i,i], .mulw, .R⟩,
    ⟨[o,i,o,o,o,o,o, x,x,x,x,x, x,x,x,x,x, o,o,o, x,x,x,x,x, o,i,i,i,o, i,i], .subw, .R⟩,
    ⟨[o,o,o,o,o,o,o, x,x,x,x,x, x,x,x,x,x, o,o,i, x,x,x,x,x, o,i,i,i,o, i,i], .sllw, .R⟩,
    ⟨[o,o,o,o,o,o,o, x,x,x,x,x, x,x,x,x,x, i,o,i, x,x,x,x,x, o,i,i,i,o, i,i], .srlw, .R⟩,
    ⟨[o,i,o,o,o,o,o, x,x,x,x,x, x,x,x,x,x, i,o,i, x,x,x,x,x, o,i,i,i,o, i,i], .sraw, .R⟩,
    ⟨[o,o,o,o,o,o,i, x,x,x,x,x, x,x,x,x,x, i,o,o, x,x,x,x,x, o,i,i,i,o, i,i], .divw, .R⟩,
    ⟨[o,o,o,o,o,o,i, x,x,x,x,x, x,x,x,x,x, i,o,i, x,x,x,x,x, o,i,i,i,o, i,i], .divuw, .R⟩,
    ⟨[o,o,o,o,o,o,i, x,x,x,x,x, x,x,x,x,x, i,i,o, x,x,x,x,x, o,i,i,i,o, i,i], .remw, .R⟩,
    ⟨[o,o,o,o,o,o,i, x,x,x,x,x, x,x,x,x,x, i,i,i, x,x,x,x,x, o,i,i,i,o, i,i], .remuw, .R⟩,
    ⟨[x,x,x,x,x,x,x, x,x,x,x,x, x,x,x,x,x, o,o,o, x,x,x,x,x, o,o,i,o,o, i,i], .addi, .I⟩,
    ⟨[x,x,x,x,x,x,x, x,x,x,x,x, x,x,x,x,x, i,i,o, x,x,x,x,x, o,o,i,o,o, i,i], .ori, .I⟩,
    ⟨[x,x,x,x,x,x,x, x,x,x,x,x, x,x,x,x,x, i,o,o, x,x,x,x,x, o,o,i,o,o, i,i], .xori, .I⟩,
    ⟨[x,x,x,x,x,x,x, x,x,x,x,x, x,x,x,x,x, i,i,i, x,x,x,x,x, o,o,i,o,o, i,i], .andi, .I⟩,
    ⟨[x,x,x,x,x,x,x, x,x,x,x,x, x,x,x,x,x, o,i,o, x,x,x,x,x, o,o,i,o,o, i,i], .slti, .I⟩,
    ⟨[x,x,x,x,x,x,x, x,x,x,x,x, x,x,x,x,x, o,i,i, x,x,x,x,x, o,o,i,o,o, i,i], .sltiu, .I⟩,
    ⟨[o,o,o,o,o,o,x, x,x,x,x,x, x,x,x,x,x, o,o,i, x,x,x,x,x, o,o,i,o,o, i,i], .slli, .I⟩,
    ⟨[o,o,o,o,o,o,x, x,x,x,x,x, x,x,x,x,x, i,o,i, x,x,x,x,x, o,o,i,o,o, i,i], .srli, .I⟩,
    ⟨[o,i,o,o,o,o,x, x,x,x,x,x, x,x,x,x,x, i,o,i, x,x,x,x,x, o,o,i,o,o, i,i], .srai, .I⟩,
    ⟨[x,x,x,x,x,x,x, x,x,x,x,x, x,x,x,x,x, o,o,o, x,x,x,x,x, o,o,i,i,o, i,i], .addiw, .I⟩,
    ⟨[o,o,o,o,o,o,o, x,x,x,x,x, x,x,x,x,x, o,o,i, x,x,x,x,x, o,o,i,i,o, i,i], .slliw, .I⟩,
    ⟨[o,o,o,o,o,o,o, x,x,x,x,x, x,x,x,x,x, i,o,i, x,x,x,x,x, o,o,i,i,o, i,i], .srliw, .I⟩,
    ⟨[o,i,o,o,o,o,o, x,x,x,x,x, x,x,x,x,x, i,o,i, x,x,x,x,x, o,o,i,i,o, i,i], .sraiw, .I⟩,
    ⟨[x,x,x,x,x,x,x, x,x,x,x,x, x,x,x,x,x, x,x,x, x,x,x,x,x, i,i,o,i,i, i,i], .jal, .J⟩,
    ⟨[x,x,x,x,x,x,x, x,x,x,x,x, x,x,x,x,x, o,o,o, x,x,x,x,x, i,i,o,o,i, i,i], .jalr, .I⟩,
    ⟨[x,x,x,x,x,x,x, x,x,x,x,x, x,x,x,x,x, o,o,o, x,x,x,x,x, i,i,o,o,o, i,i], .beq, .B⟩,
    ⟨[x,x,x,x,x,x,x, x,x,x,x,x, x,x,x,x,x, o,o,i, x,x,x,x,x, i,i,o,o,o, i,i], .bne, .B⟩,
    ⟨[x,x,x,x,x,x,x, x,x,x,x,x, x,x,x,x,x, i,o,o, x,x,x,x,x, i,i,o,o,o, i,i], .blt, .B⟩,
    ⟨[x,x,x,x,x,x,x, x,x,x,x,x, x,x,x,x,x, i,o,i, x,x,x,x,x, i,i,o,o,o, i,i], .bge, .B⟩,
    ⟨[x,x,x,x,x,x,x, x,x,x,x,x, x,x,x,x,x, i,i,o, x,x,x,x,x, i,i,o,o,o, i,i], .bltu, .B⟩,
    ⟨[x,x,x,x,x,x,x, x,x,x,x,x, x,x,x,x,x, i,i,i, x,x,x,x,x, i,i,o,o,o, i,i], .bgeu, .B⟩,
    ⟨[x,x,x,x,x,x,x, x,x,x,x,x, x,x,x,x,x, o,i,i, x,x,x,x,x, o,o,o,o,o, i,i], .ld, .I⟩,
    ⟨[x,x,x,x,x,x,x, x,x,x,x,x, x,x,x,x,x, o,i,o, x,x,x,x,x, o,o,o,o,o, i,i], .lw, .I⟩,
    ⟨[x,x,x,x,x,x,x, x,x,x,x,x, x,x,x,x,x, o,o,i, x,x,x,x,x, o,o,o,o,o, i,i], .lh, .I⟩,
    ⟨[x,x,x,x,x,x,x, x,x,x,x,x, x,x,x,x,x, o,o,o, x,x,x,x,x, o,o,o,o,o, i,i], .lb, .I⟩,
    ⟨[x,x,x,x,x,x,x, x,x,x,x,x, x,x,x,x,x, i,i,o, x,x,x,x,x, o,o,o,o,o, i,i], .lwu, .I⟩,
    ⟨[x,x,x,x,x,x,x, x,x,x,x,x, x,x,x,x,x, i,o,i, x,x,x,x,x, o,o,o,o,o, i,i], .lhu, .I⟩,
    ⟨[x,x,x,x,x,x,x, x,x,x,x,x, x,x,x,x,x, i,o,o, x,x,x,x,x, o,o,o,o,o, i,i], .lbu, .I⟩,
    ⟨[x,x,x,x,x,x,x, x,x,x,x,x, x,x,x,x,x, o,i,i, x,x,x,x,x, o,i,o,o,o, i,i], .sd, .S⟩,
    ⟨[x,x,x,x,x,x,x, x,x,x,x,x, x,x,x,x,x, o,i,o, x,x,x,x,x, o,i,o,o,o, i,i], .sw, .S⟩,
    ⟨[x,x,x,x,x,x,x, x,x,x,x,x, x,x,x,x,x, o,o,i, x,x,x,x,x, o,i,o,o,o, i,i], .sh, .S⟩,
    ⟨[x,x,x,x,x,x,x, x,x,x,x,x, x,x,x,x,x, o,o,o, x,x,x,x,x, o,i,o,o,o, i,i], .sb, .S⟩,
    ⟨[x,x,x,x,x,x,x, x,x,x,x,x, x,x,x,x,x, o,o,i, x,x,x,x,x, i,i,i,o,o, i,i], .csrrw, .I⟩,
    ⟨[x,x,x,x,x,x,x, x,x,x,x,x, x,x,x,x,x, o,i,o, x,x,x,x,x, i,i,i,o,o, i,i], .csrrs, .I⟩,
    ⟨[x,x,x,x,x,x,x, x,x,x,x,x, x,x,x,x,x, o,i,i, x,x,x,x,x, i,i,i,o,o, i,i], .csrrc, .I⟩,
    ⟨[o,o,o,o,o,o,o, o,o,o,o,o, o,o,o,o,o, o,o,o, o,o,o,o,o, i,i,i,o,o, i,i], .ecall, .I⟩,
    ⟨[o,o,i,i,o,o,o, o,o,o,i,o, o,o,o,o,o, o,o,o, o,o,o,o,o, i,i,i,o,o, i,i], .mret, .R⟩,
    ⟨[o,o,o,o,o,o,o, o,o,o,o,i, o,o,o,o,o, o,o,o, o,o,o,o,o, i,i,i,o,o, i,i], .ebreak, .N⟩,
    ⟨[x,x,x,x,x,x,x, x,x,x,x,x, o,o,o,o,o, o,o,o, o,o,o,o,o, o,o,o,i,i, i,i], .fence, .N⟩,
    ⟨[o,o,o,o,o,o,o, o,o,o,o,o, o,o,o,o,o, o,o,i, o,o,o,o,o, o,o,o,i,i, i,i], .fence, .I⟩,
    ⟨[x,x,x,x,x,x,x, x,x,x,x,x, x,x,x,x,x, x,x,x, x,x,x,x,x, x,x,x,x,x, x,x], .inv, .N⟩ ]

/-- Operand format and executor of the first row that matches. -/
def tableSelect (raw : Raw) : OperandType × ExecFn :=
  match instTable.find? fun row => keyMatches raw (patternDecode row.pattern) with
  | some row => (row.type, row.fn)
  | none => (.N, .inv)

/-! ## The rows by field -/

/-- The rows with their patterns decoded. -/
def decodedTable : List ((Nat × Nat × Nat) × ExecFn × OperandType) :=
  [ ((0x17, 0x7f, 0), .auipc, .U), ((0x37, 0x7f, 0), .lui, .U), ((0x33, 0xfe00707f, 0), .add, .R),
    ((0x2000033, 0xfe00707f, 0), .mul, .R), ((0x40000033, 0xfe00707f, 0), .sub, .R),
    ((0x6033, 0xfe00707f, 0), .or, .R), ((0x4033, 0xfe00707f, 0), .xor, .R), ((0x7033, 0xfe00707f, 0), .and, .R),
    ((0x2033, 0xfe00707f, 0), .slt, .R), ((0x3033, 0xfe00707f, 0), .sltu, .R), ((0x1033, 0xfe00707f, 0), .sll, .R),
    ((0x5033, 0xfe00707f, 0), .srl, .R), ((0x40005033, 0xfe00707f, 0), .sra, .R),
    ((0x2004033, 0xfe00707f, 0), .div, .R), ((0x2005033, 0xfe00707f, 0), .divu, .R),
    ((0x2006033, 0xfe00707f, 0), .rem, .R), ((0x2007033, 0xfe00707f, 0), .remu, .R),
    ((0x3b, 0xfe00707f, 0), .addw, .R), ((0x200003b, 0xfe00707f, 0), .mulw, .R),
    ((0x4000003b, 0xfe00707f, 0), .subw, .R), ((0x103b, 0xfe00707f, 0), .sllw, .R),
    ((0x503b, 0xfe00707f, 0), .srlw, .R), ((0x4000503b, 0xfe00707f, 0), .sraw, .R),
    ((0x200403b, 0xfe00707f, 0), .divw, .R), ((0x200503b, 0xfe00707f, 0), .divuw, .R),
    ((0x200603b, 0xfe00707f, 0), .remw, .R), ((0x200703b, 0xfe00707f, 0), .remuw, .R),
    ((0x13, 0x707f, 0), .addi, .I), ((0x6013, 0x707f, 0), .ori, .I), ((0x4013, 0x707f, 0), .xori, .I),
    ((0x7013, 0x707f, 0), .andi, .I), ((0x2013, 0x707f, 0), .slti, .I), ((0x3013, 0x707f, 0), .sltiu, .I),
    ((0x1013, 0xfc00707f, 0), .slli, .I), ((0x5013, 0xfc00707f, 0), .srli, .I),
    ((0x40005013, 0xfc00707f, 0), .srai, .I), ((0x1b, 0x707f, 0), .addiw, .I), ((0x101b, 0xfe00707f, 0), .slliw, .I),
    ((0x501b, 0xfe00707f, 0), .srliw, .I), ((0x4000501b, 0xfe00707f, 0), .sraiw, .I), ((0x6f, 0x7f, 0), .jal, .J),
    ((0x67, 0x707f, 0), .jalr, .I), ((0x63, 0x707f, 0), .beq, .B), ((0x1063, 0x707f, 0), .bne, .B),
    ((0x4063, 0x707f, 0), .blt, .B), ((0x5063, 0x707f, 0), .bge, .B), ((0x6063, 0x707f, 0), .bltu, .B),
    ((0x7063, 0x707f, 0), .bgeu, .B), ((0x3003, 0x707f, 0), .ld, .I), ((0x2003, 0x707f, 0), .lw, .I),
    ((0x1003, 0x707f, 0), .lh, .I), ((0x3, 0x707f, 0), .lb, .I), ((0x6003, 0x707f, 0), .lwu, .I),
    ((0x5003, 0x707f, 0), .lhu, .I), ((0x4003, 0x707f, 0), .lbu, .I), ((0x3023, 0x707f, 0), .sd, .S),
    ((0x2023, 0x707f, 0), .sw, .S), ((0x1023, 0x707f, 0), .sh, .S), ((0x23, 0x707f, 0), .sb, .S),
    ((0x1073, 0x707f, 0), .csrrw, .I), ((0x2073, 0x707f, 0), .csrrs, .I), ((0x3073, 0x707f, 0), .csrrc, .I),
    ((0x73, 0xffffffff, 0), .ecall, .I), ((0x30200073, 0xffffffff, 0), .mret, .R),
    ((0x100073, 0xffffffff, 0), .ebreak, .N), ((0xf, 0xfffff, 0), .fence, .N), ((0x100f, 0xffffffff, 0), .fence, .I),
    ((0x0, 0x0, 32), .inv, .N) ]

theorem instTable_decoded :
    instTable.map (fun row => (patternDecode row.pattern, row.fn, row.type)) = decodedTable := by decide +kernel

theorem tableSelect_decoded (raw : Raw) : tableSelect raw =
    match decodedTable.find? fun row => keyMatches raw row.1 with
    | some row => (row.2.2, row.2.1)
    | none => (.N, .inv) := by
  unfold tableSelect
  rw [← instTable_decoded, List.find?_map]
  cases found : instTable.find? ((fun row => keyMatches raw row.1) ∘ fun row : InstPat => (patternDecode row.pattern, row.fn, row.type)) with
  | none =>
      have same : instTable.find? (fun row => keyMatches raw (patternDecode row.pattern)) = none := found
      rw [same]
      rfl
  | some row =>
      have same : instTable.find? (fun row => keyMatches raw (patternDecode row.pattern)) = some row := found
      rw [same]
      rfl

section Fields

variable (raw : Raw)

theorem opcode7Of_nat : opcode7Of raw = raw.toNat % 128 := by
  simp [opcode7Of, BitVec.extractLsb'_toNat]

theorem funct3Of_nat : funct3Of raw = raw.toNat / 4096 % 8 := by
  simp [funct3Of, BitVec.extractLsb'_toNat, Nat.shiftRight_eq_div_pow]

theorem funct7Of_nat : funct7Of raw = raw.toNat / 33554432 := by
  have bound := raw.isLt
  simp only [funct7Of, BitVec.extractLsb'_toNat, Nat.shiftRight_eq_div_pow]
  omega

/-- The digits of a masked number. -/
theorem and_digits (x m : Nat) : (x &&& m) % 128 = x % 128 &&& m % 128 ∧ (x &&& m) / 128 % 32 = x / 128 % 32 &&& m / 128 % 32 ∧
    (x &&& m) / 4096 % 8 = x / 4096 % 8 &&& m / 4096 % 8 ∧ (x &&& m) / 32768 % 1024 = x / 32768 % 1024 &&& m / 32768 % 1024 ∧
    (x &&& m) / 33554432 = x / 33554432 &&& m / 33554432 := by
  refine ⟨Nat.and_mod_two_pow (n := 7), ?_, ?_, ?_, Nat.and_div_two_pow (n := 25)⟩
  · rw [show 128 = 2 ^ 7 from rfl, Nat.and_div_two_pow, show 32 = 2 ^ 5 from rfl, Nat.and_mod_two_pow]
  · rw [show 4096 = 2 ^ 12 from rfl, Nat.and_div_two_pow, show 8 = 2 ^ 3 from rfl, Nat.and_mod_two_pow]
  · rw [show 32768 = 2 ^ 15 from rfl, Nat.and_div_two_pow, show 1024 = 2 ^ 10 from rfl, Nat.and_mod_two_pow]

theorem and_eq_iff {x m k : Nat} : x &&& m = k ↔ x % 128 &&& m % 128 = k % 128 ∧
    x / 128 % 32 &&& m / 128 % 32 = k / 128 % 32 ∧ x / 4096 % 8 &&& m / 4096 % 8 = k / 4096 % 8 ∧
    x / 32768 % 1024 &&& m / 32768 % 1024 = k / 32768 % 1024 ∧ x / 33554432 &&& m / 33554432 = k / 33554432 := by
  obtain ⟨d0, d1, d2, d3, d4⟩ := and_digits x m
  rw [← d0, ← d1, ← d2, ← d3, ← d4]
  constructor
  · rintro rfl
    exact ⟨rfl, rfl, rfl, rfl, rfl⟩
  · rintro ⟨e0, e1, e2, e3, e4⟩
    omega

end Fields

section Rows

variable (raw : Raw)

@[simp] theorem keyMatches_opcode (k : Nat) : keyMatches raw (k, 0x7f, 0) = decide (opcode7Of raw = k) := by
  unfold keyMatches
  rw [opcode7Of_nat, ← Nat.and_two_pow_sub_one_eq_mod raw.toNat 7]
  rfl

@[simp] theorem keyMatches_funct3 {k : Nat} (fields : k % 4096 < 128 ∧ k < 32768) : keyMatches raw (k, 0x707f, 0) =
    decide (opcode7Of raw = k % 4096 ∧ funct3Of raw = k / 4096) := by
  have op := Nat.and_two_pow_sub_one_eq_mod (raw.toNat % 128) 7
  have f3 := Nat.and_two_pow_sub_one_eq_mod (raw.toNat / 4096 % 8) 3
  rw [Bool.eq_iff_iff, decide_eq_true_iff, opcode7Of_nat, funct3Of_nat]
  change (raw.toNat &&& 0x707f == k) = true ↔ _
  rw [beq_iff_eq, and_eq_iff]
  simp only [Nat.reducePow, Nat.reduceSub, Nat.reduceMod, Nat.reduceDiv, Nat.and_zero] at op f3 ⊢
  omega

@[simp] theorem keyMatches_funct7 {k : Nat} (fields : k % 4096 < 128 ∧ k % 33554432 < 32768 ∧ k < 2 ^ 32) :
    keyMatches raw (k, 0xfe00707f, 0) =
      decide (opcode7Of raw = k % 4096 ∧ funct3Of raw = k % 33554432 / 4096 ∧ funct7Of raw = k / 33554432) := by
  have bound := raw.isLt
  have op := Nat.and_two_pow_sub_one_eq_mod (raw.toNat % 128) 7
  have f3 := Nat.and_two_pow_sub_one_eq_mod (raw.toNat / 4096 % 8) 3
  have f7 := Nat.and_two_pow_sub_one_eq_mod (raw.toNat / 33554432) 7
  rw [Bool.eq_iff_iff, decide_eq_true_iff, opcode7Of_nat, funct3Of_nat, funct7Of_nat]
  change (raw.toNat &&& 0xfe00707f == k) = true ↔ _
  rw [beq_iff_eq, and_eq_iff]
  simp only [Nat.reducePow, Nat.reduceSub, Nat.reduceMod, Nat.reduceDiv, Nat.and_zero] at op f3 f7 fields ⊢
  omega

theorem and_126 (x : Nat) (small : x < 128) : x &&& 126 = x / 2 * 2 := by
  have table : ∀ x < 128, x &&& 126 = x / 2 * 2 := by decide +kernel
  exact table x small

@[simp] theorem keyMatches_funct6 {k : Nat} (fields : k % 4096 < 128 ∧ k % 67108864 < 32768 ∧ k < 2 ^ 32) :
    keyMatches raw (k, 0xfc00707f, 0) =
      decide (opcode7Of raw = k % 4096 ∧ funct3Of raw = k % 67108864 / 4096 ∧ funct7Of raw / 2 = k / 67108864) := by
  have bound := raw.isLt
  have op := Nat.and_two_pow_sub_one_eq_mod (raw.toNat % 128) 7
  have f3 := Nat.and_two_pow_sub_one_eq_mod (raw.toNat / 4096 % 8) 3
  have f6 := and_126 (raw.toNat / 33554432) (by omega)
  rw [Bool.eq_iff_iff, decide_eq_true_iff, opcode7Of_nat, funct3Of_nat, funct7Of_nat]
  change (raw.toNat &&& 0xfc00707f == k) = true ↔ _
  rw [beq_iff_eq, and_eq_iff]
  simp only [Nat.reducePow, Nat.reduceSub, Nat.reduceMod, Nat.reduceDiv, Nat.and_zero] at op f3 f6 fields ⊢
  omega

@[simp] theorem keyMatches_low20 (k : Nat) : keyMatches raw (k, 0xfffff, 0) =
    decide (opcode7Of raw = k % 128 ∧ raw.toNat % 1048576 = k) := by
  have masked := Nat.and_two_pow_sub_one_eq_mod raw.toNat 20
  rw [Bool.eq_iff_iff, decide_eq_true_iff, opcode7Of_nat]
  change (raw.toNat &&& 0xfffff == k) = true ↔ _
  simp only [Nat.reducePow, Nat.reduceSub] at masked
  rw [beq_iff_eq, masked]
  omega

@[simp] theorem keyMatches_word (k : Nat) : keyMatches raw (k, 0xffffffff, 0) =
    decide (opcode7Of raw = k % 128 ∧ raw.toNat = k) := by
  have whole := Nat.and_two_pow_sub_one_eq_mod raw.toNat 32
  rw [Nat.mod_eq_of_lt raw.isLt] at whole
  rw [Bool.eq_iff_iff, decide_eq_true_iff, opcode7Of_nat]
  change (raw.toNat &&& 0xffffffff == k) = true ↔ _
  simp only [Nat.reducePow, Nat.reduceSub] at whole
  rw [beq_iff_eq, whole]
  omega

@[simp] theorem keyMatches_all : keyMatches raw (0, 0, 32) = true := by
  simp [keyMatches]

end Rows

/-! ## Where the dispatch agrees -/

/-- The five opcode bits that `ir_decode` has a case for. -/
def dispatched : List Nat := [0x04, 0x00, 0x08, 0x18, 0x1b, 0x19, 0x05, 0x0d, 0x06, 0x0c, 0x0e, 0x1c, 0x03]

/-- The words for which the dispatch chooses executor and operand format of the table. -/
def DispatchSelects (raw : Raw) : Prop :=
  let funct3 := funct3Of raw
  let funct7 := funct7Of raw
  match opcode7Of raw with
  | 0x13 => funct3 = 1 ∨ funct3 = 5 → funct7 < 2
  | 0x03 => funct3 ≠ 7
  | 0x23 => funct3 < 4
  | 0x63 => funct3 ≠ 2 ∧ funct3 ≠ 3
  | 0x6f | 0x17 | 0x37 => True
  | 0x67 => funct3 = 0
  | 0x1b => funct3 = 0 ∨ funct3 = 1 ∧ funct7 = 0 ∨ funct3 = 5 ∧ (funct7 = 0 ∨ funct7 = 0x20)
  | 0x33 => funct7 = 0 ∨ funct7 = 0x20 ∧ (funct3 = 0 ∨ funct3 = 5) ∨ funct7 = 1 ∧ (funct3 = 0 ∨ 4 ≤ funct3)
  | 0x3b => (funct3 = 0 ∨ funct3 = 5) ∧ (funct7 = 0 ∨ funct7 = 0x20 ∨ funct7 = 1) ∨ funct3 = 1 ∧ funct7 = 0 ∨
      (funct3 = 4 ∨ funct3 = 6 ∨ funct3 = 7) ∧ funct7 = 1
  | 0x73 => raw ≠ 0x00000073 ∧ raw ≠ 0x30200073
  | 0x0f => raw.toNat % 2 ^ 20 = 0x0f
  | _ => opcodeOf raw ∉ dispatched ∨ opcodeOf raw = 0x1c ∧ ¬ (1 ≤ funct3 ∧ funct3 ≤ 3)

theorem funct3Of_lt (raw : Raw) : funct3Of raw < 8 := by
  rw [funct3Of_nat]
  omega

/-- The opcodes that have rows in the table. -/
def tableOpcodes : List Nat := [0x13, 0x03, 0x23, 0x63, 0x6f, 0x17, 0x37, 0x67, 0x1b, 0x33, 0x3b, 0x73, 0x0f]

section Select

variable {raw : Raw}

theorem tableSelect_none (other : opcode7Of raw ∉ tableOpcodes) : tableSelect raw = (.N, .inv) := by
  simp only [tableOpcodes, List.mem_cons, List.not_mem_nil, not_or, or_false] at other
  rw [tableSelect_decoded]
  simp [decodedTable, other]

theorem irSelect_none_iff (other : opcode7Of raw ∉ tableOpcodes) :
    ((irSelect raw).1 = .N ∧ (irSelect raw).2.1 = .inv) ↔
      opcodeOf raw ∉ dispatched ∨ opcodeOf raw = 0x1c ∧ ¬ (1 ≤ funct3Of raw ∧ funct3Of raw ≤ 3) := by
  have word : ∀ k : Raw, opcode7Of k = 0x73 → raw ≠ k := by
    rintro k code rfl
    exact other (code ▸ by decide)
  have ecall := word 0x73 (by decide)
  have mret := word 0x30200073 (by decide)
  have ebreak := word 0x100073 (by decide)
  by_cases system : opcodeOf raw = 0x1c
  · have bound := funct3Of_lt raw
    unfold irSelect
    simp only [system, if_neg ecall, if_neg mret, if_neg ebreak]
    interval_cases funct3Of raw <;> simp [dispatched]
  · unfold irSelect
    simp only
    split <;> simp_all [dispatched]

theorem tableSelect_iff_other (other : opcode7Of raw ∉ tableOpcodes) :
    tableSelect raw = ((irSelect raw).1, (irSelect raw).2.1) ↔ DispatchSelects raw := by
  rw [tableSelect_none other, Prod.mk.injEq, eq_comm, eq_comm (a := ExecFn.inv), irSelect_none_iff other]
  simp only [tableOpcodes, List.mem_cons, List.not_mem_nil, not_or, or_false] at other
  unfold DispatchSelects
  simp [other]

theorem tableSelect_iff_system (op : opcode7Of raw = 0x73) :
    tableSelect raw = ((irSelect raw).1, (irSelect raw).2.1) ↔ DispatchSelects raw := by
  have five : opcodeOf raw = 0x1c := by rw [opcodeOf_eq, op]
  have bound := funct3Of_lt raw
  by_cases ecall : raw = 0x73
  · subst ecall
    exact iff_of_false (by decide +kernel) fun selects => selects.1 rfl
  · by_cases mret : raw = 0x30200073
    · subst mret
      exact iff_of_false (by decide +kernel) fun selects => selects.2 rfl
    · by_cases ebreak : raw = 0x100073
      · subst ebreak
        exact iff_of_true (by decide +kernel) ⟨by decide, by decide⟩
      · have words : raw.toNat ≠ 0x73 ∧ raw.toNat ≠ 0x30200073 ∧ raw.toNat ≠ 0x100073 :=
          ⟨fun same => ecall (BitVec.eq_of_toNat_eq same), fun same => mret (BitVec.eq_of_toNat_eq same),
            fun same => ebreak (BitVec.eq_of_toNat_eq same)⟩
        rw [tableSelect_decoded]
        unfold DispatchSelects irSelect decodedTable
        simp only [op, five, if_neg ecall, if_neg mret, if_neg ebreak, words, List.find?_cons, keyMatches_opcode, keyMatches_funct3, keyMatches_funct7,
          keyMatches_funct6, keyMatches_low20, keyMatches_word, keyMatches_all, Nat.reduceMod, Nat.reduceLT, Nat.reduceDiv,
          Nat.reducePow, and_self, Nat.reduceEqDiff, false_and, decide_false, true_and]
        interval_cases funct3Of raw <;> simp <;> exact ⟨ecall, mret⟩

/-- The dispatch chooses the executor and the operand format of the first row that matches exactly for these words. -/
theorem tableSelect_iff (raw : Raw) : tableSelect raw = ((irSelect raw).1, (irSelect raw).2.1) ↔ DispatchSelects raw := by
  by_cases system : opcode7Of raw = 0x73
  · exact tableSelect_iff_system system
  by_cases listed : opcode7Of raw ∈ tableOpcodes
  · have bound := funct3Of_lt raw
    have five := opcodeOf_eq raw
    simp only [tableOpcodes, List.mem_cons, List.not_mem_nil, or_false, system, false_or] at listed
    rcases listed with op | op | op | op | op | op | op | op | op | op | op | op
    all_goals
      rw [op] at five
      rw [tableSelect_decoded]
      unfold DispatchSelects irSelect decodedTable
      simp only [op, five, List.find?_cons, keyMatches_opcode, keyMatches_funct3, keyMatches_funct7,
        keyMatches_funct6, keyMatches_low20, keyMatches_word, keyMatches_all, Nat.reduceMod, Nat.reduceLT, Nat.reduceDiv,
        Nat.reducePow, and_self, Nat.reduceEqDiff, false_and, decide_false, true_and]
    · -- immediate arithmetic: the shifts look at the upper bits of the immediate
      interval_cases funct3Of raw <;> simp
      case «1» =>
        by_cases low : funct7Of raw ≤ 1
        · simp [low]
        · simp [low]
      case «5» =>
        by_cases low : funct7Of raw ≤ 1
        · simp [low, show funct7Of raw / 2 ≠ 32 by omega]
        · by_cases arithmetic : funct7Of raw / 2 = 16 <;> by_cases shifted : funct7Of raw / 2 = 32 <;>
            simp [low, arithmetic, shifted]
    · interval_cases funct3Of raw <;> simp
    · interval_cases funct3Of raw <;> simp
    · interval_cases funct3Of raw <;> simp
    · interval_cases funct3Of raw <;> simp
    · interval_cases funct3Of raw <;> simp
    · interval_cases funct3Of raw <;> simp
    · interval_cases funct3Of raw <;> simp
    · by_cases zero : funct7Of raw = 0
      · interval_cases funct3Of raw <;> simp [zero]
      · by_cases alt : funct7Of raw = 32
        · interval_cases funct3Of raw <;> simp [alt]
        · interval_cases funct3Of raw <;> simp [zero, alt]
    · by_cases zero : funct7Of raw = 0
      · interval_cases funct3Of raw <;> simp [zero]
      · by_cases one : funct7Of raw = 1
        · interval_cases funct3Of raw <;> simp [one]
        · by_cases alt : funct7Of raw = 32
          · interval_cases funct3Of raw <;> simp [alt]
          · interval_cases funct3Of raw <;> simp [zero, one, alt]
    · by_cases zero : funct7Of raw = 0
      · interval_cases funct3Of raw <;> simp [zero]
      · by_cases one : funct7Of raw = 1
        · interval_cases funct3Of raw <;> simp [one]
        · by_cases alt : funct7Of raw = 32
          · interval_cases funct3Of raw <;> simp [alt]
          · interval_cases funct3Of raw <;> simp [zero, one, alt]
    · by_cases fence : raw.toNat % 1048576 = 15
      · simp [fence]
      · by_cases instruction : raw.toNat = 4111 <;> simp [fence, instruction]
  · exact tableSelect_iff_other listed

end Select

end Sustemu
