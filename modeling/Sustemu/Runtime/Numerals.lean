import Sustemu.Runtime.Stdio
import Mathlib.Data.Nat.Digits.Lemmas

/-!
# Numerals

What `int2str` and `int2str_hex` leave in the buffer: the digits from the most
significant one down, without leading zeros, a sign where the number is
negative, and the terminator at the length that is returned.
-/

set_option autoImplicit false

namespace Sustemu.Runtime

/-! ## Canonical numerals -/

/-- The letter of a digit, in both bases. -/
def digitLetter (digit : Nat) : Char := "0123456789abcdef".toList.getD digit ' '

/-- The text is the numeral of `n`: digits of the base, the first one zero only if it is the only one. -/
structure IsNumeral (base n : Nat) (text : List Char) : Prop where
  digits : ∃ digits : List Nat, text = digits.map digitLetter ∧ (∀ digit ∈ digits, digit < base) ∧
    Nat.ofDigits base digits.reverse = n ∧ digits ≠ [] ∧ (digits.head? = some 0 → digits = [0])

/-- The numeral of an integer, with a sign where it is negative. -/
def IsDecimal (num : Int) (text : List Char) : Prop :=
  if num < 0 then ∃ digits, text = '-' :: digits ∧ IsNumeral 10 num.natAbs digits else IsNumeral 10 num.natAbs text

/-- The buffer holds the text and its terminator, and its length was returned. -/
structure Holds (result : Nat × (Nat → Char)) (text : List Char) : Prop where
  length : result.1 = text.length
  content : (List.range text.length).map result.2 = text
  terminated : result.2 text.length = '\x00'

theorem holds_written {result : Nat × (Nat → Char)} (terminated : result.2 result.1 = '\x00') :
    Holds result (written result) := by
  have length : (written result).length = result.1 := by
    unfold written
    rw [List.length_map, List.length_range]
  refine ⟨length.symm, ?_, by rw [length]; exact terminated⟩
  rw [length]
  rfl

/-- The digits of a positive number form its numeral. -/
theorem isNumeral_digits {base n : Nat} (several : 1 < base) (positive : n ≠ 0) :
    IsNumeral base n ((Nat.digits base n).reverse.map digitLetter) := by
  have some : Nat.digits base n ≠ [] := Nat.digits_ne_nil_iff_ne_zero.mpr positive
  refine ⟨(Nat.digits base n).reverse, rfl, fun digit member => ?_, ?_, ?_, fun zero => ?_⟩
  · exact Nat.digits_lt_base several (List.mem_reverse.mp member)
  · rw [List.reverse_reverse, Nat.ofDigits_digits]
  · exact List.reverse_ne_nil_iff.mpr some
  · rw [List.head?_reverse, List.getLast?_eq_getLast_of_ne_nil some] at zero
    exact absurd (Option.some.inj zero) (Nat.getLast_digit_ne_zero base positive)

theorem isNumeral_zero {base : Nat} (positive : 0 < base) : IsNumeral base 0 ['0'] := by
  refine ⟨[0], rfl, List.forall_mem_singleton.mpr positive, ?_, nofun, fun _ => rfl⟩
  simp

/-! ## `int2str` -/

theorem digitChar_letter {digit : Nat} (small : digit < 10) : digitChar digit = digitLetter digit := by
  have table : ∀ digit < 10, digitChar digit = digitLetter digit := by decide
  exact table digit small

theorem decimal_isDecimal (num : Int) : IsDecimal num (decimal num) := by
  unfold IsDecimal decimal
  by_cases zero : num = 0
  · subst zero
    exact isNumeral_zero (by decide)
  · have letters : (Nat.digits 10 num.natAbs).reverse.map digitChar =
        (Nat.digits 10 num.natAbs).reverse.map digitLetter := by
      refine List.map_congr_left fun digit member => digitChar_letter ?_
      exact Nat.digits_lt_base (by decide) (List.mem_reverse.mp member)
    have numeral : IsNumeral 10 num.natAbs _ := isNumeral_digits (by decide) (Int.natAbs_ne_zero.mpr zero)
    rw [if_neg zero, letters]
    split
    · exact ⟨_, rfl, numeral⟩
    · exact numeral

theorem int2str_terminated (num : Int) (str : Nat → Char) : (int2str num str).2 (int2str num str).1 = '\x00' :=
  Lib.setAt_self ..

/-! ## `int2str_hex` -/

theorem hexDigit_letter (num : BitVec 32) :
    (if (num % 16).toNat < 10 then Char.ofNat ((num % 16).toNat + 0x30)
      else Char.ofNat ((num % 16).toNat + 'a'.toNat - 10)) = digitLetter (num.toNat % 16) := by
  have table : ∀ digit < 16, (if digit < 10 then Char.ofNat (digit + 0x30) else Char.ofNat (digit + 'a'.toNat - 10)) =
      digitLetter digit := by decide
  have same : (num % 16).toNat = num.toNat % 16 := BitVec.toNat_umod
  rw [same]
  exact table _ (Nat.mod_lt _ (by decide))

theorem int2strHexDigits_eq (turns : Nat) (num : BitVec 32) (index : Nat) (str : Nat → Char)
    (small : num.toNat < 16 ^ turns) :
    (int2strHexDigits turns num index str).1 = index + (Nat.digits 16 num.toNat).length ∧
      written (int2strHexDigits turns num index str) =
        (List.range index).map str ++ (Nat.digits 16 num.toNat).map digitLetter := by
  induction turns generalizing num index str with
  | zero =>
      have zero : num.toNat = 0 := by simpa using small
      simp [int2strHexDigits, written, zero]
  | succ turns ih =>
      unfold int2strHexDigits
      by_cases zero : num = 0
      · simp [zero, written]
      · rw [if_neg zero]
        have positive : 0 < num.toNat := Nat.pos_of_ne_zero fun same => zero (BitVec.eq_of_toNat_eq same)
        have quotient : (num / 16).toNat = num.toNat / 16 := BitVec.toNat_udiv
        have small' : (num / 16).toNat < 16 ^ turns := by
          rw [quotient]
          exact Nat.div_lt_of_lt_mul (by rwa [← Nat.pow_succ'])
        dsimp only
        rw [hexDigit_letter]
        obtain ⟨length, text⟩ := ih (num / 16) (index + 1) (Lib.setAt str index (digitLetter (num.toNat % 16))) small'
        rw [length, text, range_map_update, quotient, Nat.digits_def' (by decide) positive]
        refine ⟨by rw [List.length_cons]; omega, ?_⟩
        rw [List.map_cons, List.append_assoc]
        rfl

/-- The hexadecimal numeral. -/
def hexadecimal (num : Nat) : List Char :=
  if num = 0 then ['0'] else (Nat.digits 16 num).reverse.map digitLetter

theorem hexadecimal_isNumeral (num : Nat) : IsNumeral 16 num (hexadecimal num) := by
  unfold hexadecimal
  split
  · next zero =>
      subst zero
      exact isNumeral_zero (by decide)
  · next positive => exact isNumeral_digits (by decide) positive

theorem int2strHex_hexadecimal (num : BitVec 32) (str : Nat → Char) :
    written (int2strHex num.toInt str) = hexadecimal num.toNat := by
  have same : BitVec.ofInt 32 num.toInt = num := BitVec.ofInt_toInt
  unfold int2strHex hexadecimal
  rw [same]
  by_cases zero : num = 0
  · subst zero
    exact written_mirrored (1, Lib.setAt str 0 '0') (Nat.zero_le 1) (Nat.zero_le _)
  · have positive : num.toNat ≠ 0 := fun same => zero (BitVec.eq_of_toNat_eq same)
    obtain ⟨length, text⟩ := int2strHexDigits_eq 8 num 0 str (by simpa using num.isLt)
    simp only [if_neg zero]
    rw [if_neg positive]
    refine (written_mirrored (int2strHexDigits 8 num 0 str) (Nat.zero_le 1) (Nat.zero_le _)).trans ?_
    rw [text]
    simp [List.map_reverse]

theorem int2strHex_terminated (num : Int) (str : Nat → Char) :
    (int2strHex num str).2 (int2strHex num str).1 = '\x00' :=
  Lib.setAt_self ..

/-- Both functions write the canonical numeral with its terminator and return its length. -/
theorem numerals_canonical (num : BitVec 32) (str : Nat → Char) :
    (∃ text, Holds (int2str num.toInt str) text ∧ IsDecimal num.toInt text) ∧
      ∃ text, Holds (int2strHex num.toInt str) text ∧ IsNumeral 16 num.toNat text := by
  refine ⟨⟨_, holds_written (int2str_terminated _ str), ?_⟩, ⟨_, holds_written (int2strHex_terminated _ str), ?_⟩⟩
  · rw [int2str_decimal]
    exact decimal_isDecimal num.toInt
  · rw [int2strHex_hexadecimal]
    exact hexadecimal_isNumeral num.toNat

example : written (int2str (-2147483648) fun _ => ' ') = "-2147483648".toList := by decide

end Sustemu.Runtime
