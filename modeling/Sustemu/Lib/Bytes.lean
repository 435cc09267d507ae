import Mathlib.Algebra.Group.Int.Defs
import Mathlib.Algebra.Group.Nat.Defs
import Mathlib.Algebra.GroupWithZero.Nat
import Mathlib.Data.Nat.Basic
import Mathlib.Tactic.Common

/-!
# Little-endian byte memories

A byte memory is a total function from addresses to bytes. Words are read and
written little-endian, a few bytes at a time, and a narrow word is extended to
64 bits with or without its sign.
-/

set_option autoImplicit false

namespace Sustemu.Lib

abbrev Byte := BitVec 8

abbrev ByteMem := Nat → Byte

/-- Byte number `position` of a 64-bit word. -/
def byteOf (word : BitVec 64) (position : Nat) : Byte := word.extractLsb' (8 * position) 8

/-- The little-endian word held by `width` bytes from `address` on. -/
def loadLE (mem : ByteMem) (address : Nat) : Nat → BitVec 64
  | 0 => 0
  | width + 1 => loadLE mem address width ||| ((mem (address + width)).setWidth 64 <<< (8 * width))

/-- Overwrite `width` bytes from `address` on with the low bytes of a word. -/
def storeLE (mem : ByteMem) (address width : Nat) (word : BitVec 64) : ByteMem := fun byte =>
  if address ≤ byte ∧ byte < address + width then byteOf word (byte - address) else mem byte

/-- Sign or zero extension of the low `width` bytes; eight bytes are kept as they are. -/
def extend (signed : Bool) (width : Nat) (word : BitVec 64) : BitVec 64 :=
  if signed then
    match width with
    | 1 => (word.setWidth 8).signExtend 64
    | 2 => (word.setWidth 16).signExtend 64
    | 4 => (word.setWidth 32).signExtend 64
    | _ => word
  else
    match width with
    | 1 => (word.setWidth 8).setWidth 64
    | 2 => (word.setWidth 16).setWidth 64
    | 4 => (word.setWidth 32).setWidth 64
    | _ => word

/-- The byte ranges `[a, a + m)` and `[b, b + n)` share no address. -/
def Apart (a m b n : Nat) : Prop := a + m ≤ b ∨ b + n ≤ a

/-- The byte range `[b, b + n)` lies inside `[a, a + m)`. -/
def Covers (a m b n : Nat) : Prop := a ≤ b ∧ b + n ≤ a + m

instance (a m b n : Nat) : Decidable (Apart a m b n) := inferInstanceAs (Decidable (_ ∨ _))

instance (a m b n : Nat) : Decidable (Covers a m b n) := inferInstanceAs (Decidable (_ ∧ _))

/-! ## Reading bits and bytes -/

theorem getLsbD_byteOf (word : BitVec 64) (position bit : Nat) :
    (byteOf word position).getLsbD bit = (decide (bit < 8) && word.getLsbD (8 * position + bit)) := by
  simp [byteOf, BitVec.getLsbD_extractLsb']

theorem getLsbD_loadLE (mem : ByteMem) (address width bit : Nat) (narrow : width ≤ 8) :
    (loadLE mem address width).getLsbD bit =
      (decide (bit < 8 * width) && (mem (address + bit / 8)).getLsbD (bit % 8)) := by
  induction width with
  | zero => simp [loadLE]
  | succ width ih =>
      rw [loadLE, BitVec.getLsbD_or, ih (by omega)]
      rw [BitVec.getLsbD_shiftLeft, BitVec.getLsbD_setWidth]
      by_cases low : bit < 8 * width
      · have wider : bit < 8 * (width + 1) := by omega
        simp [low, wider]
      · by_cases inside : bit < 8 * (width + 1)
        · have byteIndex : bit / 8 = width := by omega
          have bitIndex : bit - 8 * width = bit % 8 := by omega
          have bounded : bit < 64 := by omega
          have residue : bit % 8 < 64 := by omega
          simp [low, inside, byteIndex, bitIndex, bounded, residue]
        · have beyond : 8 ≤ bit - 8 * width := by omega
          have absent : (mem (address + width)).getLsbD (bit - 8 * width) = false :=
            BitVec.getLsbD_of_ge _ _ beyond
          simp [low, inside, absent]

theorem loadLE_congr {left right : ByteMem} {address width : Nat}
    (same : ∀ byte, address ≤ byte → byte < address + width → left byte = right byte) :
    loadLE left address width = loadLE right address width := by
  induction width with
  | zero => rfl
  | succ width ih =>
      rw [loadLE, loadLE, ih (fun byte low high => same byte low (by omega)),
        same (address + width) (by omega) (by omega)]

/-- A word determines the bytes it was loaded from. -/
theorem loadLE_eq_iff {left right : ByteMem} {address width : Nat} (narrow : width ≤ 8) :
    loadLE left address width = loadLE right address width ↔
      ∀ byte, address ≤ byte → byte < address + width → left byte = right byte := by
  refine ⟨fun equal byte low high => ?_, loadLE_congr⟩
  apply BitVec.eq_of_getLsbD_eq
  intro bit inside
  have bits := congrArg (fun word => word.getLsbD (8 * (byte - address) + bit)) equal
  have position : address + (8 * (byte - address) + bit) / 8 = byte := by omega
  have residue : (8 * (byte - address) + bit) % 8 = bit := by omega
  simp only [getLsbD_loadLE _ _ _ _ narrow, position, residue] at bits
  rw [decide_eq_true (by omega)] at bits
  exact bits

theorem loadLE_shift (mem : ByteMem) (origin address width : Nat) :
    loadLE (fun byte => mem (origin + byte)) address width = loadLE mem (origin + address) width := by
  induction width with
  | zero => rfl
  | succ width ih => rw [loadLE, loadLE, ih, Nat.add_assoc]

/-- A store does not reach a load from disjoint bytes. -/
theorem loadLE_storeLE_disjoint (mem : ByteMem) {sa sw la lw : Nat} (word : BitVec 64)
    (apart : Apart sa sw la lw) :
    loadLE (storeLE mem sa sw word) la lw = loadLE mem la lw := by
  apply loadLE_congr
  intro byte low high
  unfold storeLE
  rw [if_neg]
  rcases apart with before | after <;> omega

/-- A load inside the bytes of a store sees the store's word, shifted to the load's first byte. -/
theorem getLsbD_loadLE_storeLE_covers (mem : ByteMem) {sa sw la lw bit : Nat} (word : BitVec 64)
    (inside : Covers sa sw la lw) (narrow : lw ≤ 8) (low : bit < 8 * lw) :
    (loadLE (storeLE mem sa sw word) la lw).getLsbD bit = (word >>> (8 * (la - sa))).getLsbD bit := by
  obtain ⟨start, finish⟩ := inside
  rw [getLsbD_loadLE _ _ _ _ narrow, BitVec.getLsbD_ushiftRight]
  have stored : storeLE mem sa sw word (la + bit / 8) = byteOf word (la + bit / 8 - sa) := by
    unfold storeLE
    rw [if_pos]
    omega
  rw [stored, getLsbD_byteOf]
  have position : 8 * (la + bit / 8 - sa) + bit % 8 = 8 * (la - sa) + bit := by omega
  have residue : bit % 8 < 8 := by omega
  simp [low, position, residue]

/-- Extension only looks at the low bytes. -/
theorem extend_congr {signed : Bool} {width : Nat} {left right : BitVec 64}
    (ordinary : width = 1 ∨ width = 2 ∨ width = 4 ∨ width = 8)
    (same : ∀ bit, bit < 8 * width → left.getLsbD bit = right.getLsbD bit) :
    extend signed width left = extend signed width right := by
  have narrowed : ∀ size, size ≤ 8 * width → left.setWidth size = right.setWidth size := by
    intro size small
    apply BitVec.eq_of_getLsbD_eq
    intro bit inside
    rw [BitVec.getLsbD_setWidth, BitVec.getLsbD_setWidth, same bit (by omega)]
  unfold extend
  rcases ordinary with rfl | rfl | rfl | rfl
  · simp only [narrowed 8 (by omega)]
  · simp only [narrowed 16 (by omega)]
  · simp only [narrowed 32 (by omega)]
  · have whole : left = right := BitVec.eq_of_getLsbD_eq fun bit inside => same bit (by omega)
    rw [whole]

/-- Forwarding from a covering store gives what reading back the stored bytes gives. -/
theorem extend_loadLE_storeLE_covers (mem : ByteMem) {sa sw la lw : Nat} (signed : Bool)
    (word : BitVec 64) (inside : Covers sa sw la lw)
    (ordinary : lw = 1 ∨ lw = 2 ∨ lw = 4 ∨ lw = 8) :
    extend signed lw (loadLE (storeLE mem sa sw word) la lw) =
      extend signed lw (word >>> (8 * (la - sa))) := by
  apply extend_congr ordinary
  intro bit low
  exact getLsbD_loadLE_storeLE_covers mem word inside (by omega) low

theorem storeLE_of_outside {mem : ByteMem} {address width byte : Nat} (word : BitVec 64)
    (outside : byte < address ∨ address + width ≤ byte) :
    storeLE mem address width word byte = mem byte := by
  unfold storeLE
  rw [if_neg]
  omega

end Sustemu.Lib
