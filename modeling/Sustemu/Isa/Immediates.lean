import Mathlib.Order.Nat
import Mathlib.Order.Lattice
import Sustemu.Isa.Inst

/-!
# Immediates

Each format scatters the bits of its value over the instruction word. The
formats are listed field by field, as the encoding places them; that `immI` and
its siblings read the same fields is proved bit by bit.
-/

set_option autoImplicit false

namespace Sustemu

/-! ## Bits of the operations -/

theorem getLsbD_mask {n : Nat} (inside : n < 64) (i : Nat) :
    (BitVec.ofNat 64 (2 ^ n - 1)).getLsbD i = decide (i < n) := by
  rw [BitVec.getLsbD_ofNat, Nat.testBit_two_pow_sub_one]
  by_cases below : i < n
  · simp only [below, decide_true, Bool.and_true, decide_eq_true_eq]
    omega
  · simp only [below, decide_false, Bool.and_false]

theorem getLsbD_bits (raw : Raw) {hi lo : Nat} (inside : hi - lo < 32) (i : Nat) :
    (bits raw hi lo).getLsbD i = (decide (i ≤ hi - lo) && raw.getLsbD (lo + i)) := by
  unfold bits
  rw [BitVec.getLsbD_and, BitVec.getLsbD_ushiftRight, BitVec.getLsbD_setWidth, getLsbD_mask (by omega)]
  by_cases field : i ≤ hi - lo
  · by_cases word : lo + i < 32
    · simp [field, show lo + i < 64 by omega, Nat.lt_succ_of_le field]
    · simp [BitVec.getLsbD_of_ge raw (lo + i) (Nat.not_lt.mp word)]
  · simp [field, mt Nat.le_of_lt_succ field]

theorem getLsbD_signExtend_last {width : Nat} (positive : 0 < width) (word : BitVec width) {i : Nat} (inside : i < 64) :
    (word.signExtend 64).getLsbD i = word.getLsbD (min i (width - 1)) := by
  rw [BitVec.getLsbD_signExtend, BitVec.msb_eq_getLsbD_last]
  simp only [inside, decide_true, Bool.true_and]
  split
  · next below => rw [Nat.min_eq_left (by omega)]
  · next above => rw [Nat.min_eq_right (by omega)]

theorem getLsbD_sext {width : Nat} (positive : 0 < width) (word : Word) {i : Nat} (inside : i < 64) :
    (sext width word).getLsbD i = word.getLsbD (min i (width - 1)) := by
  unfold sext
  rw [getLsbD_signExtend_last positive _ inside, BitVec.getLsbD_setWidth]
  simp only [show min i (width - 1) < width by omega, decide_true, Bool.true_and]

/-! ## Formats -/

inductive ImmFormat where
  | I | S | B | J | U
  deriving DecidableEq, Repr

/-- `length` bits of the value, from `low` up, stand in the instruction word from `position` up. -/
structure ImmField where
  low : Nat
  position : Nat
  length : Nat

namespace ImmFormat

/-- The fields of the encoding. -/
def fields : ImmFormat → List ImmField
  | I => [⟨0, 20, 12⟩]
  | S => [⟨5, 25, 7⟩, ⟨0, 7, 5⟩]
  | B => [⟨12, 31, 1⟩, ⟨11, 7, 1⟩, ⟨5, 25, 6⟩, ⟨1, 8, 4⟩]
  | J => [⟨20, 31, 1⟩, ⟨12, 12, 8⟩, ⟨11, 20, 1⟩, ⟨1, 21, 10⟩]
  | U => [⟨12, 12, 20⟩]

/-- The width of the signed value. -/
def width : ImmFormat → Nat
  | I => 12
  | S => 12
  | B => 13
  | J => 21
  | U => 32

/-- The number of low bits that are always zero. -/
def zeros : ImmFormat → Nat
  | I => 0
  | S => 0
  | B => 1
  | J => 1
  | U => 12

def decode : ImmFormat → Raw → Word
  | I => immI
  | S => immS
  | B => immB
  | J => immJ
  | U => immU

end ImmFormat

/-- The instruction word with one field of the value placed in it. -/
def ImmField.place {width : Nat} (field : ImmField) (value : BitVec width) (raw : Raw) : Raw :=
  let mask : Raw := BitVec.ofNat 32 (2 ^ field.length - 1) <<< field.position
  (raw &&& ~~~mask) ||| (((value >>> field.low).setWidth 32 <<< field.position) &&& mask)

/-- The instruction word with the value placed in the fields of its format. -/
def ImmFormat.place (format : ImmFormat) (value : BitVec format.width) (raw : Raw) : Raw :=
  format.fields.foldl (fun raw field => field.place value raw) raw

/-- The two words have the same bits in the fields of the format. -/
def ImmFormat.SameFields (format : ImmFormat) (raw raw' : Raw) : Prop :=
  ∀ field ∈ format.fields, ∀ k < field.length, raw.getLsbD (field.position + k) = raw'.getLsbD (field.position + k)

theorem ImmField.getLsbD_place {width : Nat} (field : ImmField) (value : BitVec width) (raw : Raw) {i : Nat}
    (inside : i < 32) :
    (field.place value raw).getLsbD i =
      if field.position ≤ i ∧ i < field.position + field.length then value.getLsbD (field.low + (i - field.position))
      else raw.getLsbD i := by
  have mask : (BitVec.ofNat 32 (2 ^ field.length - 1) <<< field.position).getLsbD i =
      decide (field.position ≤ i ∧ i < field.position + field.length) := by
    rw [BitVec.getLsbD_shiftLeft, BitVec.getLsbD_ofNat, Nat.testBit_two_pow_sub_one]
    by_cases before : i < field.position
    · simp [before, Nat.not_le.mpr before]
    · simp only [inside, before, decide_true, decide_false, Bool.not_false, Bool.true_and, Bool.and_self]
      grind
  unfold place
  simp only [BitVec.getLsbD_or, BitVec.getLsbD_and, BitVec.getLsbD_not, mask, inside, BitVec.getLsbD_shiftLeft,
    BitVec.getLsbD_setWidth, BitVec.getLsbD_ushiftRight]
  grind

/-! ## Bits of the immediates -/

/-- The bit of the instruction word that a bit of the value is read from. -/
def ImmFormat.source (format : ImmFormat) (i : Nat) : Option Nat :=
  (format.fields.find? fun field => field.low ≤ i ∧ i < field.low + field.length).map fun field =>
    field.position + (i - field.low)

theorem getLsbD_immI (raw : Raw) {i : Nat} (inside : i < 64) : (immI raw).getLsbD i = raw.getLsbD (20 + min i 11) := by
  unfold immI
  rw [getLsbD_sext (by decide) _ inside, getLsbD_bits raw (by decide)]
  simp

theorem getLsbD_immU (raw : Raw) {i : Nat} (inside : i < 64) :
    (immU raw).getLsbD i = (decide (12 ≤ i) && raw.getLsbD (min i 31)) := by
  unfold immU
  rw [BitVec.getLsbD_shiftLeft]
  by_cases low : i < 12
  · simp [low, Nat.not_le.mpr low]
  · rw [getLsbD_sext (by decide) _ (by omega), getLsbD_bits raw (by decide)]
    have same : 12 + min (i - 12) 19 = min i 31 := by omega
    simp [low, inside, same, Nat.not_lt.mp low]

theorem getLsbD_immS (raw : Raw) {i : Nat} (inside : i < 64) :
    (immS raw).getLsbD i = if i < 5 then raw.getLsbD (7 + i) else raw.getLsbD (20 + min i 11) := by
  unfold immS
  rw [BitVec.getLsbD_or, BitVec.getLsbD_shiftLeft, getLsbD_bits raw (by decide)]
  by_cases low : i < 5
  · simp [low, show i ≤ 4 by omega]
  · rw [getLsbD_sext (by decide) _ (by omega), getLsbD_bits raw (by decide)]
    have same : 25 + min (i - 5) 6 = 20 + min i 11 := by omega
    simp [low, inside, same, show ¬ i ≤ 4 by omega]

theorem getLsbD_immB (raw : Raw) {i : Nat} (inside : i < 64) :
    (immB raw).getLsbD i =
      if i = 0 then false else if i < 5 then raw.getLsbD (i + 7) else if i < 11 then raw.getLsbD (i + 20)
      else if i = 11 then raw.getLsbD 7 else raw.getLsbD 31 := by
  unfold immB
  simp only [BitVec.getLsbD_or, BitVec.getLsbD_shiftLeft, inside]
  grind [getLsbD_sext, getLsbD_bits]

theorem getLsbD_immJ (raw : Raw) {i : Nat} (inside : i < 64) :
    (immJ raw).getLsbD i =
      if i = 0 then false else if i < 11 then raw.getLsbD (i + 20) else if i = 11 then raw.getLsbD 20
      else if i < 20 then raw.getLsbD i else raw.getLsbD 31 := by
  unfold immJ
  simp only [BitVec.getLsbD_or, BitVec.getLsbD_shiftLeft, inside]
  grind [getLsbD_sext, getLsbD_bits]

theorem ImmFormat.getLsbD_decode (format : ImmFormat) (raw : Raw) {i : Nat} (inside : i < 64) :
    (format.decode raw).getLsbD i = (format.source (min i (format.width - 1))).any raw.getLsbD := by
  cases format with
  | I =>
      refine (getLsbD_immI raw inside).trans ?_
      simp only [source, fields, width, List.find?_cons]
      grind
  | S =>
      refine (getLsbD_immS raw inside).trans ?_
      simp only [source, fields, width, List.find?_cons]
      grind
  | B =>
      refine (getLsbD_immB raw inside).trans ?_
      simp only [source, fields, width, List.find?_cons]
      grind
  | J =>
      refine (getLsbD_immJ raw inside).trans ?_
      simp only [source, fields, width, List.find?_cons]
      grind
  | U =>
      refine (getLsbD_immU raw inside).trans ?_
      simp only [source, fields, width, List.find?_cons]
      grind

/-! ## Placing and decoding -/

/-- The sources of the value's bits hold the value, and the other bits of the value have none. -/
theorem ImmFormat.source_place (format : ImmFormat) (value : BitVec format.width) (raw : Raw) {i : Nat}
    (inside : i < format.width) :
    (format.source i).any (format.place value raw).getLsbD = (decide (format.zeros ≤ i) && value.getLsbD i) := by
  cases format with
  | I =>
      simp only [source, place, fields, zeros, width, List.foldl_cons, List.foldl_nil, List.find?_cons] at inside ⊢
      grind [ImmField.getLsbD_place]
  | S =>
      simp only [source, place, fields, zeros, width, List.foldl_cons, List.foldl_nil, List.find?_cons] at inside ⊢
      grind [ImmField.getLsbD_place]
  | B =>
      simp only [source, place, fields, zeros, width, List.foldl_cons, List.foldl_nil, List.find?_cons] at inside ⊢
      grind [ImmField.getLsbD_place]
  | J =>
      simp only [source, place, fields, zeros, width, List.foldl_cons, List.foldl_nil, List.find?_cons] at inside ⊢
      grind [ImmField.getLsbD_place]
  | U =>
      simp only [source, place, fields, zeros, width, List.foldl_cons, List.foldl_nil, List.find?_cons] at inside ⊢
      grind [ImmField.getLsbD_place]

theorem ImmFormat.source_same {format : ImmFormat} {raw raw' : Raw} (same : format.SameFields raw raw') (i : Nat) :
    (format.source i).any raw.getLsbD = (format.source i).any raw'.getLsbD := by
  unfold source
  cases found : format.fields.find? fun field => field.low ≤ i ∧ i < field.low + field.length with
  | none => rfl
  | some field =>
      have within : field.low ≤ i ∧ i < field.low + field.length := by simpa using List.find?_some found
      exact same field (List.mem_of_find?_eq_some found) (i - field.low) (by omega)

/-- A multiple of a power of two has zeros below it. -/
theorem getLsbD_of_aligned {width zeros : Nat} {value : BitVec width} (within : zeros ≤ width)
    (aligned : (2 ^ zeros : Int) ∣ value.toInt) {i : Nat} (low : i < zeros) : value.getLsbD i = false := by
  have power : (2 ^ zeros : Int) ∣ ((2 ^ width : Nat) : Int) := by
    exact_mod_cast Nat.pow_dvd_pow 2 within
  have divides : (2 ^ zeros : Int) ∣ (value.toNat : Int) := by
    rw [BitVec.toInt_eq_toNat_cond] at aligned
    split at aligned
    · exact aligned
    · exact (Int.dvd_iff_dvd_of_dvd_sub aligned).mpr power
  obtain ⟨k, multiple⟩ : 2 ^ zeros ∣ value.toNat := by exact_mod_cast divides
  rw [← BitVec.testBit_toNat, multiple, Nat.testBit_two_pow_mul, decide_eq_false (Nat.not_le.mpr low), Bool.false_and]

theorem ImmFormat.decode_place {format : ImmFormat} (value : BitVec format.width)
    (aligned : (2 ^ format.zeros : Int) ∣ value.toInt) (raw : Raw) :
    format.decode (format.place value raw) = value.signExtend 64 := by
  have positive : 0 < format.width := by cases format <;> decide
  have within : format.zeros ≤ format.width := by cases format <;> decide
  refine BitVec.eq_of_getLsbD_eq fun i inside => ?_
  rw [format.getLsbD_decode _ inside, format.source_place value raw (by omega),
    getLsbD_signExtend_last positive value inside]
  by_cases low : format.zeros ≤ min i (format.width - 1)
  · rw [decide_eq_true low, Bool.true_and]
  · rw [decide_eq_false low, Bool.false_and, getLsbD_of_aligned within aligned (Nat.not_le.mp low)]

theorem ImmFormat.decode_same {format : ImmFormat} {raw raw' : Raw} (same : format.SameFields raw raw') :
    format.decode raw = format.decode raw' := by
  refine BitVec.eq_of_getLsbD_eq fun i inside => ?_
  rw [format.getLsbD_decode _ inside, format.getLsbD_decode _ inside, source_same same]

/-- Decoding inverts the placement of every value of the format, and reads no other bit of the instruction. -/
theorem immediates_decoded (format : ImmFormat) :
    (∀ (value : BitVec format.width) (raw : Raw), (2 ^ format.zeros : Int) ∣ value.toInt →
      format.decode (format.place value raw) = value.signExtend 64) ∧
    ∀ raw raw' : Raw, format.SameFields raw raw' → format.decode raw = format.decode raw' :=
  ⟨fun value raw aligned => ImmFormat.decode_place value aligned raw, fun _ _ same => ImmFormat.decode_same same⟩

/-- A branch by -8. -/
example : immB (ImmFormat.B.place (BitVec.ofInt 13 (-8)) 0x00b50063) = BitVec.ofInt 64 (-8) := by decide

end Sustemu
