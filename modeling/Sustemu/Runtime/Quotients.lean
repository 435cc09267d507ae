import Sustemu.Lib.LongDivision
import Sustemu.Runtime.Division

/-!
# Quotients

The routines of `int64.c` divide. The counts of zeros align the dividend with
the divisor, so that the loop of `__udivmoddi4` is a long division that starts
at the first bit of the quotient, and its test by the sign of a difference
never goes wrong.
-/

set_option autoImplicit false

namespace Sustemu.Runtime

open Lib

/-! ## The counts -/

/-- `c` is the number of leading zeros of the `bits`-bit number `x`. -/
structure LeadingZeros (bits x c : Nat) : Prop where
  inside : c < bits
  least : 2 ^ (bits - 1 - c) ≤ x
  most : x < 2 ^ (bits - c)

theorem and_high_eq_zero {x w : Nat} (short : x < 2 ^ (2 * w)) : x &&& (2 ^ w - 1) * 2 ^ w = 0 ↔ x < 2 ^ w := by
  have split : x &&& (2 ^ w - 1) * 2 ^ w = (x >>> w % 2 ^ w) <<< w := by
    rw [← Nat.and_two_pow_sub_one_eq_mod, ← Nat.shiftLeft_eq]
    refine Nat.eq_of_testBit_eq fun i => ?_
    simp only [Nat.testBit_and, Nat.testBit_shiftLeft, Nat.testBit_shiftRight]
    by_cases low : w ≤ i
    · simp [low]
    · simp [low]
  have upper : x >>> w < 2 ^ w := by
    rw [Nat.shiftRight_eq_div_pow, Nat.div_lt_iff_lt_mul (Nat.two_pow_pos w), ← Nat.pow_add, ← Nat.two_mul]
    exact short
  rw [split, Nat.mod_eq_of_lt upper, Nat.shiftLeft_eq, Nat.mul_eq_zero, Nat.shiftRight_eq_div_pow,
    Nat.div_eq_zero_iff_lt (Nat.two_pow_pos w)]
  simp

/-- Half of the word is dealt with. -/
theorem clzHalf_spec {m x : BitVec 32} {w : Nat} (bits : m.toNat = (2 ^ w - 1) * 2 ^ w) (short : x.toNat < 2 ^ (2 * w)) :
    (clzHalf m w x).2.toNat < 2 ^ w ∧ (x ≠ 0 → (clzHalf m w x).2 ≠ 0) ∧
      ∀ c, LeadingZeros w (clzHalf m w x).2.toNat c → LeadingZeros (2 * w) x.toNat ((clzHalf m w x).1 + c) := by
  have test : x &&& m = 0 ↔ x.toNat < 2 ^ w := by
    rw [← and_high_eq_zero short, ← bits, ← BitVec.toNat_and]
    exact ⟨fun zero => by rw [zero]; rfl, fun zero => BitVec.eq_of_toNat_eq zero⟩
  have product : 2 ^ (2 * w) = 2 ^ w * 2 ^ w := by rw [← Nat.pow_add, ← Nat.two_mul]
  unfold clzHalf
  simp only
  by_cases small : x.toNat < 2 ^ w
  · rw [if_pos (test.mpr small), Nat.sub_self]
    refine ⟨small, id, fun c ⟨inside, least, most⟩ => ⟨by omega, ?_, ?_⟩⟩
    · exact (congrArg (2 ^ ·) (by omega)).trans_le least
    · exact most.trans_eq (congrArg (2 ^ ·) (by omega))
  · rw [if_neg (mt test.mp small), Nat.sub_zero]
    have high : (x >>> w).toNat = x.toNat / 2 ^ w := by rw [BitVec.toNat_ushiftRight, Nat.shiftRight_eq_div_pow]
    rw [high]
    refine ⟨(Nat.div_lt_iff_lt_mul (Nat.two_pow_pos w)).mpr (product ▸ short), fun _ zero => ?_, fun c ⟨inside, least, most⟩ => ⟨by omega, ?_, ?_⟩⟩
    · rw [zero] at high
      exact small ((Nat.div_eq_zero_iff_lt (Nat.two_pow_pos w)).mp high.symm)
    · rw [Nat.le_div_iff_mul_le (Nat.two_pow_pos w), ← Nat.pow_add] at least
      exact (congrArg (2 ^ ·) (by omega)).trans_le least
    · rw [Nat.div_lt_iff_lt_mul (Nat.two_pow_pos w), ← Nat.pow_add] at most
      exact most.trans_eq (congrArg (2 ^ ·) (by omega))

theorem clzsi2_spec {a : BitVec 32} (some : a ≠ 0) : LeadingZeros 32 a.toNat (clzsi2 a) := by
  have step₁ := clzHalf_spec (m := 0xFFFF0000) (x := a) (w := 16) rfl a.isLt
  have step₂ := clzHalf_spec (m := 0xFF00) (w := 8) rfl step₁.1
  have step₃ := clzHalf_spec (m := 0xF0) (w := 4) rfl step₂.1
  have step₄ := clzHalf_spec (m := 0xC) (w := 2) rfl step₃.1
  have last : ∀ x : BitVec 32, x.toNat < 4 → x ≠ 0 →
      LeadingZeros 2 x.toNat (if x &&& 2 = 0 then 2 - x.toNat else 0) := by
    intro x short some
    have positive : x.toNat ≠ 0 := fun zero => some (BitVec.eq_of_toNat_eq zero)
    have values : x.toNat = 1 ∨ x.toNat = 2 ∨ x.toNat = 3 := by omega
    have cases : x = 1 ∨ x = 2 ∨ x = 3 :=
      values.imp BitVec.eq_of_toNat_eq (Or.imp BitVec.eq_of_toNat_eq BitVec.eq_of_toNat_eq)
    rcases cases with rfl | rfl | rfl <;> exact ⟨by decide, by decide, by decide⟩
  have whole := step₁.2.2 _ (step₂.2.2 _ (step₃.2.2 _ (step₄.2.2 _ (last _ step₄.1
    (step₄.2.1 (step₃.2.1 (step₂.2.1 (step₁.2.1 some))))))))
  simp only [← Nat.add_assoc] at whole
  exact whole

/-- The lowest set bit of `x` has the number `c`. -/
structure TrailingZeros (x c : Nat) : Prop where
  divides : x % 2 ^ c = 0
  odd : x / 2 ^ c % 2 = 1

/-- The lower bits are dealt with if they are all zero. -/
theorem ctzHalf_spec {m x : BitVec 32} {w : Nat} (bits : m.toNat = 2 ^ w - 1) (some : x.toNat % 2 ^ (2 * w) ≠ 0) :
    (ctzHalf m w x).2.toNat % 2 ^ w ≠ 0 ∧
      ∀ c, TrailingZeros (ctzHalf m w x).2.toNat c → TrailingZeros x.toNat ((ctzHalf m w x).1 + c) := by
  have test : x &&& m = 0 ↔ x.toNat % 2 ^ w = 0 := by
    rw [← Nat.and_two_pow_sub_one_eq_mod, ← bits, ← BitVec.toNat_and]
    exact ⟨fun zero => by rw [zero]; rfl, fun zero => BitVec.eq_of_toNat_eq zero⟩
  unfold ctzHalf
  simp only
  by_cases zeros : x.toNat % 2 ^ w = 0
  · rw [if_pos (test.mpr zeros)]
    have high : (x >>> w).toNat = x.toNat / 2 ^ w := by rw [BitVec.toNat_ushiftRight, Nat.shiftRight_eq_div_pow]
    rw [high]
    refine ⟨fun none => some ?_, fun c ⟨divides, odd⟩ => ⟨?_, ?_⟩⟩
    · rw [Nat.two_mul, Nat.pow_add, Nat.mod_mul, zeros, none, Nat.mul_zero]
    · rw [Nat.pow_add, Nat.mod_mul, zeros, divides, Nat.mul_zero]
    · rw [Nat.pow_add, ← Nat.div_div_eq_div_mul]
      exact odd
  · rw [if_neg (mt test.mp zeros), BitVec.ushiftRight_zero]
    refine ⟨zeros, fun c trailing => ?_⟩
    rw [Nat.zero_add]
    exact trailing

theorem ctzsi2_spec {a : BitVec 32} (some : a ≠ 0) : TrailingZeros a.toNat (ctzsi2 a) := by
  have positive : a.toNat % 2 ^ (2 * 16) ≠ 0 := by
    rw [Nat.mod_eq_of_lt a.isLt]
    exact fun zero => some (BitVec.eq_of_toNat_eq zero)
  have step₁ := ctzHalf_spec (m := 0x0000FFFF) (w := 16) rfl positive
  have step₂ := ctzHalf_spec (m := 0x00FF) (w := 8) rfl step₁.1
  have step₃ := ctzHalf_spec (m := 0x0F) (w := 4) rfl step₂.1
  have step₄ := ctzHalf_spec (m := 0x3) (w := 2) rfl step₃.1
  have last : ∀ x : BitVec 32, x.toNat % 2 ^ 2 ≠ 0 →
      TrailingZeros x.toNat (if x &&& 3 &&& 1 = 0 then 2 - ((x &&& 3) >>> 1).toNat else 0) := by
    intro x some
    have two : (x &&& 3).toNat = x.toNat % 4 := by
      rw [BitVec.toNat_and]
      exact Nat.and_two_pow_sub_one_eq_mod x.toNat 2
    have low : x &&& 3 &&& 1 = 0 ↔ x.toNat % 4 % 2 = 0 := by
      rw [← two, ← Nat.and_one_is_mod, ← BitVec.toNat_inj, BitVec.toNat_and]
      rfl
    have upper : ((x &&& 3) >>> 1).toNat = x.toNat % 4 / 2 := by
      rw [BitVec.toNat_ushiftRight, two, Nat.shiftRight_eq_div_pow]
    rw [upper]
    by_cases even : x.toNat % 4 % 2 = 0
    · rw [if_pos (low.mpr even), show 2 - x.toNat % 4 / 2 = 1 by omega]
      exact ⟨by omega, by omega⟩
    · rw [if_neg (mt low.mp even)]
      exact ⟨Nat.mod_one _, by omega⟩
  have whole := step₁.2 _ (step₂.2 _ (step₃.2 _ (step₄.2 _ (last _ step₄.1))))
  simp only [← Nat.add_assoc] at whole
  exact whole

/-! ## Halves -/

theorem UDWords.all_ofAll (x : BitVec 64) : (UDWords.ofAll x).all = x := by
  refine BitVec.eq_of_getLsbD_eq fun i inside => ?_
  simp only [all, ofAll, BitVec.getLsbD_append, BitVec.getLsbD_extractLsb']
  by_cases low : i < 32
  · simp [low]
  · rw [if_neg low, decide_eq_true (by omega), Bool.true_and, Nat.add_sub_cancel' (Nat.not_lt.mp low)]

theorem UDWords.toNat_all (x : UDWords) : x.all.toNat = x.high.toNat * 2 ^ 32 + x.low.toNat := by
  unfold UDWords.all
  rw [BitVec.toNat_append, Nat.shiftLeft_eq, ← Nat.shiftLeft_eq, ← Nat.shiftLeft_add_eq_or_of_lt x.low.isLt, Nat.shiftLeft_eq]

theorem ofAll_zero {a : BitVec 64} : a = 0 ↔ (UDWords.ofAll a).high = 0 ∧ (UDWords.ofAll a).low = 0 := by
  constructor
  · rintro rfl
    exact ⟨by decide, by decide⟩
  · rintro ⟨high, low⟩
    rw [← UDWords.all_ofAll a, UDWords.all, high, low]
    rfl

/-- A 64-bit number shifted by one bit, in halves. -/
theorem UDWords.all_shift (x : UDWords) (carry : BitVec 32) :
    (⟨(x.high <<< 1) ||| (x.low >>> 31), (x.low <<< 1) ||| carry⟩ : UDWords).all = (x.all <<< 1) ||| carry.setWidth 64 := by
  refine BitVec.eq_of_getLsbD_eq fun i inside => ?_
  simp only [all, BitVec.getLsbD_append, BitVec.getLsbD_or, BitVec.getLsbD_shiftLeft, BitVec.getLsbD_ushiftRight,
    BitVec.getLsbD_setWidth]
  rcases Nat.lt_trichotomy i 32 with below | rfl | above
  · have before : i - 1 < 32 := by omega
    simp [below, before, inside]
  · simp
  · have later : ¬i < 32 := by omega
    have first : ¬i - 1 < 32 := by omega
    have positive : ¬i - 32 < 1 := by omega
    have bound : ¬i < 1 := by omega
    have top : x.low.getLsbD (31 + (i - 32)) = false := BitVec.getLsbD_of_ge _ _ (by omega)
    have none : carry.getLsbD i = false := BitVec.getLsbD_of_ge _ _ (by omega)
    have room : i - 32 < 32 := by omega
    simp only [later, first, positive, bound, top, none, room, inside, if_false, decide_true, decide_false, Bool.not_false,
      Bool.true_and, Bool.and_false, Bool.or_false]
    congr 1

/-- A shift by one bit brings the carry in at the bottom. -/
theorem toNat_shift_or (x : BitVec 64) {carry : BitVec 32} (bit : carry.toNat < 2) :
    ((x <<< 1) ||| carry.setWidth 64).toNat = (2 * x.toNat + carry.toNat) % 2 ^ 64 := by
  have wide : (carry.setWidth 64).toNat = carry.toNat := BitVec.toNat_setWidth_of_le (by decide)
  have even : x.toNat <<< 1 % 2 ^ 64 = (x.toNat % 2 ^ 63) <<< 1 := by
    rw [Nat.shiftLeft_eq, Nat.shiftLeft_eq]
    omega
  rw [BitVec.toNat_or, BitVec.toNat_shiftLeft, wide, even, ← Nat.shiftLeft_add_eq_or_of_lt bit, Nat.shiftLeft_eq]
  omega

/-! ## The loop -/

/-- The sign of a number, in every bit. -/
theorem sshiftRight_63 (x : BitVec 64) : x.sshiftRight 63 = if x.msb then BitVec.allOnes 64 else 0#64 := by
  refine BitVec.eq_of_getLsbD_eq fun i inside => ?_
  have sign : (x.sshiftRight 63).getLsbD i = x.msb := by
    rw [BitVec.getLsbD_sshiftRight, decide_eq_false (by omega), Bool.not_false, Bool.true_and]
    split
    · next low =>
        obtain rfl : i = 0 := by omega
        rfl
    · rfl
  rw [sign]
  cases x.msb with
  | true => rw [if_pos rfl, BitVec.getLsbD_allOnes, decide_eq_true inside]
  | false => rw [if_neg Bool.false_ne_true, BitVec.getLsbD_zero]

/-- The sign of `d - r - 1` tells whether `d` fits in `r`. -/
theorem fits_mask {d r : BitVec 64} (double : r.toNat < 2 * d.toNat) (signed : d.toNat ≤ 2 ^ 63 ∨ 2 ^ 63 ≤ r.toNat) :
    (d - r - 1).sshiftRight 63 = if d.toNat ≤ r.toNat then BitVec.allOnes 64 else 0#64 := by
  have value : (d - r - 1).toNat = (2 ^ 64 + d.toNat - r.toNat + (2 ^ 64 - 1)) % 2 ^ 64 := by
    have one : (1 : BitVec 64).toNat = 1 := rfl
    rw [BitVec.toNat_sub, BitVec.toNat_sub, one]
    have small := r.isLt
    omega
  have msb : (d - r - 1).msb = decide (d.toNat ≤ r.toNat) := by
    rw [BitVec.msb_eq_decide, value]
    have smallR := r.isLt
    have smallD := d.isLt
    congr 1
    rw [eq_iff_iff]
    omega
  rw [sshiftRight_63, msb]
  exact if_congr decide_eq_true_iff rfl rfl

/-- With `k` bits to go, the loop has divided the rest, and the quotient register holds both. -/
structure DivState.Divides (s : DivState) (n : Nat) (d : UDWords) (k quot : Nat) : Prop where
  divided : Divided n d.all.toNat k quot s.r.all.toNat
  packed : ∃ low, Packed 64 n k low s.q.all.toNat ∧ quot = 2 * low + s.carry.toNat
  bit : s.carry.toNat < 2

theorem DivState.Divides.step {s : DivState} {n k quot : Nat} {d : UDWords} (divides : s.Divides n d (k + 1) quot)
    (word : n < 2 ^ 64) (signed : d.all.toNat ≤ 2 ^ 63 ∨ k = 0 ∧ quot = 0 ∧ 2 ^ 63 ≤ n) :
    ∃ quot', (divStep d s).Divides n d k quot' := by
  obtain ⟨divided, ⟨low, packed, rfl⟩, bit⟩ := divides
  obtain ⟨top, after⟩ := packed.step bit
  have next : n / 2 ^ k % 2 < 2 := Nat.mod_lt _ (by decide)
  have shifted := divided.shifted_le
  have below := divided.below
  -- The next bit comes out of the quotient register into the remainder.
  have high : (s.q.high >>> 31).toNat = n / 2 ^ k % 2 := by
    rw [← top, UDWords.toNat_all, BitVec.toNat_ushiftRight, Nat.shiftRight_eq_div_pow]
    have small := s.q.low.isLt
    omega
  have remainder : (⟨(s.r.high <<< 1) ||| (s.r.low >>> 31), (s.r.low <<< 1) ||| (s.q.high >>> 31)⟩ : UDWords).all.toNat =
      2 * s.r.all.toNat + n / 2 ^ k % 2 := by
    rw [UDWords.all_shift, toNat_shift_or _ (high ▸ next), high]
    exact Nat.mod_eq_of_lt (by omega)
  have register : (divStep d s).q.all.toNat = (2 * s.q.all.toNat + s.carry.toNat) % 2 ^ 64 := by
    change (UDWords.all ⟨(s.q.high <<< 1) ||| (s.q.low >>> 31), (s.q.low <<< 1) ||| s.carry⟩).toNat = _
    rw [UDWords.all_shift, toNat_shift_or _ bit]
  rw [← register] at after
  generalize brought : (⟨(s.r.high <<< 1) ||| (s.r.low >>> 31), (s.r.low <<< 1) ||| (s.q.high >>> 31)⟩ : UDWords) = r at remainder
  have mask := fits_mask (d := d.all) (r := r.all) (by omega) (by
    rcases signed with small | ⟨rfl, zero, large⟩
    · exact .inl small
    · right
      have whole := divided.equation
      have first := Divided.next_bit n 0
      rw [zero, Nat.zero_mul, Nat.zero_add] at whole
      rw [Nat.pow_zero, Nat.div_one] at first remainder
      omega)
  have rest : (divStep d s).r.all = r.all - (d.all &&& (d.all - r.all - 1).sshiftRight 63) := by
    unfold divStep
    rw [brought]
    exact UDWords.all_ofAll _
  have carried : (divStep d s).carry = ((d.all - r.all - 1).sshiftRight 63 &&& 1).setWidth 32 := by
    unfold divStep
    rw [brought]
  rw [mask] at rest carried
  have result := divided.step
  by_cases fits : d.all.toNat ≤ r.all.toNat
  · rw [if_pos fits, BitVec.and_allOnes] at rest
    rw [if_pos fits] at carried
    rw [if_pos (remainder ▸ fits), ← remainder] at result
    have one : (divStep d s).carry.toNat = 1 := by
      rw [carried]
      decide
    refine ⟨2 * (2 * low + s.carry.toNat) + 1, ⟨?_, ⟨_, after, ?_⟩, by rw [one]; decide⟩⟩
    · rw [rest, BitVec.toNat_sub_of_le (BitVec.le_def.mpr fits)]
      exact result
    · rw [one]
  · rw [if_neg fits, BitVec.and_zero, BitVec.sub_zero] at rest
    rw [if_neg fits] at carried
    rw [if_neg (remainder ▸ fits), ← remainder] at result
    have zero : (divStep d s).carry.toNat = 0 := by
      rw [carried]
      decide
    refine ⟨2 * (2 * low + s.carry.toNat), ⟨?_, ⟨_, after, ?_⟩, by rw [zero]; decide⟩⟩
    · rw [rest]
      exact result
    · rw [zero, Nat.add_zero]

theorem DivState.Divides.loop {s : DivState} {n k quot : Nat} {d : UDWords} (divides : s.Divides n d k quot)
    (word : n < 2 ^ 64) (signed : d.all.toNat ≤ 2 ^ 63 ∨ k ≤ 1 ∧ quot = 0 ∧ 2 ^ 63 ≤ n) :
    ∃ quot', (divLoop d k s).Divides n d 0 quot' := by
  induction k generalizing s quot with
  | zero => exact ⟨quot, divides⟩
  | succ k ih =>
      obtain ⟨quot', after⟩ := divides.step word (signed.imp id fun ⟨last, zero, large⟩ => ⟨by omega, zero, large⟩)
      cases k with
      | zero => exact ⟨quot', after⟩
      | succ k => exact ih after (.inl (signed.resolve_right fun ⟨last, _⟩ => by omega))

/-- From the split of the dividend on, the function computes quotient and remainder. -/
theorem finish_spec {a b : BitVec 64} {sr : Nat} {q r : UDWords} (short : sr ≤ 64) (rest : r.all.toNat = a.toNat / 2 ^ sr)
    (bits : q.all.toNat = a.toNat % 2 ^ sr * 2 ^ (64 - sr)) (small : a.toNat / 2 ^ sr < b.toNat)
    (signed : b.toNat ≤ 2 ^ 63 ∨ sr ≤ 1 ∧ 2 ^ 63 ≤ a.toNat) : finish (.ofAll b) sr q r = (a / b, a % b) := by
  have start : (DivState.mk r q 0).Divides a.toNat (.ofAll b) sr 0 := by
    refine ⟨?_, ⟨0, ?_, rfl⟩, Nat.zero_lt_two⟩
    · rw [UDWords.all_ofAll]
      exact rest ▸ Divided.init small
    · exact bits ▸ Packed.init short
  obtain ⟨quot, divided, ⟨low, packed, same⟩, bit⟩ := start.loop a.isLt (by
    rw [UDWords.all_ofAll]
    exact signed.imp id fun ⟨last, large⟩ => ⟨last, rfl, large⟩)
  rw [UDWords.all_ofAll] at divided
  obtain ⟨quotient, remainder⟩ := divided.done
  unfold finish
  simp only [Prod.mk.injEq]
  constructor
  · refine BitVec.eq_of_toNat_eq ?_
    rw [toNat_shift_or _ bit, packed.done, ← same, ← quotient, BitVec.toNat_udiv]
    exact Nat.mod_eq_of_lt (Nat.lt_of_le_of_lt (Nat.div_le_self ..) a.isLt)
  · refine BitVec.eq_of_toNat_eq ?_
    rw [BitVec.toNat_umod, remainder]

/-! ## Splitting the dividend -/

theorem getLsbD_high (a : BitVec 64) (i : Nat) : (UDWords.ofAll a).high.getLsbD i = a.getLsbD (32 + i) := by
  unfold UDWords.ofAll
  rw [BitVec.getLsbD_extractLsb']
  by_cases inside : i < 32
  · rw [decide_eq_true inside, Bool.true_and]
  · rw [decide_eq_false inside, Bool.false_and, BitVec.getLsbD_of_ge _ _ (by omega)]

theorem getLsbD_low (a : BitVec 64) (i : Nat) : (UDWords.ofAll a).low.getLsbD i = (decide (i < 32) && a.getLsbD i) := by
  unfold UDWords.ofAll
  rw [BitVec.getLsbD_extractLsb', Nat.zero_add]

theorem getLsbD_all (x : UDWords) (i : Nat) :
    x.all.getLsbD i = if i < 32 then x.low.getLsbD i else x.high.getLsbD (i - 32) := BitVec.getLsbD_append ..

section Splits

variable (a : BitVec 64) {sr : Nat}

/-- The lower word of `a >> sr`. -/
theorem getLsbD_funnel (short : sr < 32) {i : Nat} (inside : i < 32) :
    (((UDWords.ofAll a).high <<< (32 - sr)) ||| ((UDWords.ofAll a).low >>> sr)).getLsbD i = a.getLsbD (sr + i) := by
  rw [BitVec.getLsbD_or, BitVec.getLsbD_shiftLeft, BitVec.getLsbD_ushiftRight, getLsbD_high, getLsbD_low]
  by_cases low : sr + i < 32
  · have before : i < 32 - sr := by omega
    simp [low, before]
  · have after : ¬i < 32 - sr := by omega
    have same : 32 + (i - (32 - sr)) = sr + i := by omega
    simp [low, after, inside, same]

theorem all_shiftRight (short : sr < 32) : (⟨(UDWords.ofAll a).high >>> sr,
    ((UDWords.ofAll a).high <<< (32 - sr)) ||| ((UDWords.ofAll a).low >>> sr)⟩ : UDWords).all = a >>> sr := by
  refine BitVec.eq_of_getLsbD_eq fun i inside => ?_
  rw [getLsbD_all, BitVec.getLsbD_ushiftRight a]
  split
  · next low => exact getLsbD_funnel a short low
  · next high =>
      rw [BitVec.getLsbD_ushiftRight, getLsbD_high]
      congr 1
      omega

theorem splitBelow_spec (positive : 0 < sr) (short : sr < 32) : ∃ q r,
    splitBelow (.ofAll a) sr = some (q, r) ∧ r.all = a >>> sr ∧ q.all = a <<< (64 - sr) := by
  have up : 32 - sr < 32 := by omega
  refine ⟨⟨_, _⟩, ⟨_, _⟩, by simp only [splitBelow, shl, shr, if_pos short, if_pos up]; rfl, all_shiftRight a short, ?_⟩
  refine BitVec.eq_of_getLsbD_eq fun i inside => ?_
  rw [getLsbD_all, BitVec.getLsbD_shiftLeft, BitVec.getLsbD_shiftLeft, getLsbD_low]
  by_cases low : i < 64 - sr
  · have first : i < 32 ∨ i - 32 < 32 - sr := by omega
    rcases first with first | first <;> simp [low, first]
  · have upper : ¬i < 32 := by omega
    have after : ¬i - 32 < 32 - sr := by omega
    have room : i - 32 < 32 := by omega
    have same : i - 32 - (32 - sr) = i - (64 - sr) := by omega
    have bottom : i - (64 - sr) < 32 := by omega
    simp [low, upper, after, room, same, bottom, inside]

theorem splitAt32_spec : (splitAt32 (.ofAll a)).2.all = a >>> 32 ∧ (splitAt32 (.ofAll a)).1.all = a <<< 32 := by
  constructor
  · refine BitVec.eq_of_getLsbD_eq fun i inside => ?_
    rw [getLsbD_all, BitVec.getLsbD_ushiftRight a]
    split
    · exact getLsbD_high a i
    · rw [BitVec.getLsbD_of_ge _ _ (by omega : 64 ≤ 32 + i)]
      exact BitVec.getLsbD_zero
  · refine BitVec.eq_of_getLsbD_eq fun i inside => ?_
    rw [getLsbD_all, BitVec.getLsbD_shiftLeft a]
    split
    · next low =>
        rw [decide_eq_true low, Bool.not_true, Bool.and_false, Bool.false_and]
        exact BitVec.getLsbD_zero
    · next high =>
        have room : i - 32 < 32 := by omega
        rw [decide_eq_true inside, decide_eq_false high, Bool.not_false, Bool.true_and, Bool.true_and]
        change (UDWords.ofAll a).low.getLsbD (i - 32) = _
        rw [getLsbD_low, decide_eq_true room, Bool.true_and]

theorem splitAbove_spec (long : 32 < sr) (short : sr < 64) : ∃ q r,
    splitAbove (.ofAll a) sr = some (q, r) ∧ r.all = a >>> sr ∧ q.all = a <<< (64 - sr) := by
  have up : 64 - sr < 32 := by omega
  have down : sr - 32 < 32 := by omega
  refine ⟨⟨_, _⟩, ⟨_, _⟩, by simp only [splitAbove, shl, shr, if_pos up, if_pos down]; rfl, ?_, ?_⟩
  · refine BitVec.eq_of_getLsbD_eq fun i inside => ?_
    rw [getLsbD_all, BitVec.getLsbD_ushiftRight a]
    split
    · rw [BitVec.getLsbD_ushiftRight, getLsbD_high]
      congr 1
      omega
    · rw [BitVec.getLsbD_of_ge _ _ (by omega : 64 ≤ sr + i)]
      exact BitVec.getLsbD_zero
  · refine BitVec.eq_of_getLsbD_eq fun i inside => ?_
    rw [getLsbD_all, BitVec.getLsbD_shiftLeft a]
    split
    · next low =>
        have bottom : i - (64 - sr) < 32 := by omega
        rw [BitVec.getLsbD_shiftLeft, getLsbD_low, decide_eq_true low, decide_eq_true inside, decide_eq_true bottom]
        simp
    · next high =>
        have funnel := getLsbD_funnel a down (i := i - 32) (by omega)
        have back : 32 - (sr - 32) = 64 - sr := by omega
        rw [back] at funnel
        have later : ¬i < 64 - sr := by omega
        rw [funnel, decide_eq_true inside, decide_eq_false later, Bool.not_false, Bool.true_and, Bool.true_and]
        congr 1
        omega

end Splits

/-! ## Quotient and remainder -/

theorem divMod_eq {a b q r : BitVec 64} (quotient : q.toNat = a.toNat / b.toNat) (remainder : r.toNat = a.toNat % b.toNat) :
    (q, r) = (a / b, a % b) :=
  Prod.ext (BitVec.eq_of_toNat_eq (quotient.trans BitVec.toNat_udiv.symm))
    (BitVec.eq_of_toNat_eq (remainder.trans BitVec.toNat_umod.symm))

theorem divMod_of_lt {a b : BitVec 64} (less : a.toNat < b.toNat) : (0, a) = (a / b, a % b) :=
  divMod_eq (Nat.div_eq_of_lt less).symm (Nat.mod_eq_of_lt less).symm

theorem toNat_halves (a : BitVec 64) :
    a.toNat = (UDWords.ofAll a).high.toNat * 2 ^ 32 + (UDWords.ofAll a).low.toNat := by
  rw [← UDWords.toNat_all, UDWords.all_ofAll]

section Counts

variable {a b : BitVec 64} {cn cd : Nat}

/-- The leading zeros of a number are those of its upper half. -/
theorem leadingZeros_high (some : (UDWords.ofAll a).high ≠ 0) : LeadingZeros 64 a.toNat (clzsi2 (UDWords.ofAll a).high) := by
  obtain ⟨inside, least, most⟩ := clzsi2_spec some
  have small := (UDWords.ofAll a).low.isLt
  have halves := toNat_halves a
  have lower : 2 ^ (64 - 1 - clzsi2 (UDWords.ofAll a).high) = 2 ^ (32 - 1 - clzsi2 (UDWords.ofAll a).high) * 2 ^ 32 := by
    rw [← Nat.pow_add]
    congr 1
    omega
  have upper : 2 ^ (64 - clzsi2 (UDWords.ofAll a).high) = 2 ^ (32 - clzsi2 (UDWords.ofAll a).high) * 2 ^ 32 := by
    rw [← Nat.pow_add]
    congr 1
    omega
  exact ⟨by omega, by omega, by omega⟩

theorem leadingZeros_low (none : (UDWords.ofAll a).high = 0) (some : (UDWords.ofAll a).low ≠ 0) :
    LeadingZeros 64 a.toNat (32 + clzsi2 (UDWords.ofAll a).low) := by
  obtain ⟨inside, least, most⟩ := clzsi2_spec some
  have whole : a.toNat = (UDWords.ofAll a).low.toNat := by
    rw [toNat_halves a, none]
    exact Nat.zero_add _
  rw [whole]
  refine ⟨by omega, ?_, ?_⟩
  · exact (congrArg (2 ^ ·) (by omega)).trans_le least
  · exact most.trans_eq (congrArg (2 ^ ·) (by omega))

/-- Once the dividend is aligned with the divisor, the loop divides. -/
theorem finish_aligned (dividend : LeadingZeros 64 a.toNat cn) (divisor : LeadingZeros 64 b.toNat cd) (order : cn ≤ cd)
    {sr : Nat} (aligned : sr = cd - cn + 1) {q r : UDWords} (rest : r.all = a >>> sr) (bits : q.all = a <<< (64 - sr)) :
    finish (.ofAll b) sr q r = (a / b, a % b) := by
  obtain ⟨insideN, leastN, mostN⟩ := dividend
  obtain ⟨insideD, leastD, mostD⟩ := divisor
  refine finish_spec (by omega) ?_ ?_ ?_ ?_
  · rw [rest, BitVec.toNat_ushiftRight, Nat.shiftRight_eq_div_pow]
  · have whole : 2 ^ 64 = 2 ^ sr * 2 ^ (64 - sr) := by
      rw [← Nat.pow_add]
      congr 1
      omega
    rw [bits, BitVec.toNat_shiftLeft, Nat.shiftLeft_eq, whole, Nat.mul_mod_mul_right]
  · rw [Nat.div_lt_iff_lt_mul (Nat.two_pow_pos sr)]
    have length : 2 ^ (64 - cn) = 2 ^ (64 - 1 - cd) * 2 ^ sr := by
      rw [← Nat.pow_add]
      congr 1
      omega
    exact Nat.lt_of_lt_of_le mostN (length ▸ Nat.mul_le_mul_right _ leastD)
  · by_cases full : cd = 0
    · refine .inr ⟨by omega, ?_⟩
      have none : cn = 0 := by omega
      rw [none] at leastN
      exact leastN
    · left
      have bound : 2 ^ (64 - cd) ≤ 2 ^ 63 := Nat.pow_le_pow_right (by decide) (by omega)
      omega

theorem lt_of_leadingZeros (dividend : LeadingZeros 64 a.toNat cn) (divisor : LeadingZeros 64 b.toNat cd) (order : cd < cn) :
    a.toNat < b.toNat := by
  have bound : 2 ^ (64 - cn) ≤ 2 ^ (64 - 1 - cd) := Nat.pow_le_pow_right (by decide) (by omega)
  exact Nat.lt_of_lt_of_le dividend.most (bound.trans divisor.least)

end Counts

/-- The difference of two counts is large if it is negative. -/
theorem clzDiff_eq {x y : BitVec 32} (someX : x ≠ 0) (someY : y ≠ 0) :
    clzDiff x y = if clzsi2 y ≤ clzsi2 x then clzsi2 x - clzsi2 y else 2 ^ 32 + clzsi2 x - clzsi2 y := by
  have insideX := (clzsi2_spec someX).inside
  have insideY := (clzsi2_spec someY).inside
  unfold clzDiff
  rw [BitVec.toNat_sub, BitVec.toNat_ofNat, BitVec.toNat_ofNat]
  split <;> omega

/-- The counts of 64-bit numbers. -/
theorem clzdi2_spec {a : BitVec 64} (some : a ≠ 0) : LeadingZeros 64 a.toNat (clzdi2 a) := by
  unfold clzdi2
  by_cases high : (UDWords.ofAll a).high = 0
  · have low : (UDWords.ofAll a).low ≠ 0 := fun low => some (ofAll_zero.mpr ⟨high, low⟩)
    rw [if_pos high, Nat.add_comm]
    exact leadingZeros_low high low
  · rw [if_neg high]
    exact leadingZeros_high high

theorem ctzdi2_spec {a : BitVec 64} (some : a ≠ 0) : TrailingZeros a.toNat (ctzdi2 a) := by
  have halves := toNat_halves a
  unfold ctzdi2
  by_cases low : (UDWords.ofAll a).low = 0
  · have high : (UDWords.ofAll a).high ≠ 0 := fun high => some (ofAll_zero.mpr ⟨high, low⟩)
    obtain ⟨divides, odd⟩ := ctzsi2_spec high
    have whole : a.toNat = (UDWords.ofAll a).high.toNat * 2 ^ 32 := by
      rw [halves, low]
      exact Nat.add_zero _
    rw [if_pos low, whole]
    refine ⟨?_, ?_⟩
    · rw [Nat.pow_add, Nat.mul_mod_mul_right, divides, Nat.zero_mul]
    · rw [Nat.pow_add, Nat.mul_div_mul_right _ _ (Nat.two_pow_pos 32), odd]
  · obtain ⟨divides, odd⟩ := ctzsi2_spec low
    have inside : ctzsi2 (UDWords.ofAll a).low < 32 := by
      by_contra large
      have bound : 2 ^ 32 ≤ 2 ^ ctzsi2 (UDWords.ofAll a).low := Nat.pow_le_pow_right (by decide) (Nat.not_lt.mp large)
      rw [Nat.div_eq_of_lt (Nat.lt_of_lt_of_le (UDWords.ofAll a).low.isLt bound)] at odd
      cases odd
    have split : 2 ^ 32 = 2 ^ ctzsi2 (UDWords.ofAll a).low * (2 ^ (31 - ctzsi2 (UDWords.ofAll a).low) * 2) := by
      rw [← Nat.pow_succ, ← Nat.pow_add]
      congr 1
      omega
    have parts : a.toNat = 2 ^ ctzsi2 (UDWords.ofAll a).low *
        ((UDWords.ofAll a).high.toNat * 2 ^ (31 - ctzsi2 (UDWords.ofAll a).low) * 2) + (UDWords.ofAll a).low.toNat := by
      rw [halves, split]
      ring
    rw [if_neg low, parts]
    refine ⟨?_, ?_⟩
    · rw [Nat.mul_add_mod, divides]
    · rw [Nat.mul_add_div (Nat.two_pow_pos _), Nat.mul_add_mod_self_right, odd]

/-! ## Powers of two -/

/-- A word with one bit set is the power of two that its trailing zeros count. -/
theorem toNat_of_and_sub_one {x : BitVec 32} (some : x ≠ 0) (one : x &&& (x - 1) = 0) :
    x.toNat = 2 ^ ctzsi2 x ∧ (x - 1).toNat = 2 ^ ctzsi2 x - 1 ∧ ctzsi2 x < 32 := by
  have positive : x.toNat ≠ 0 := fun zero => some (BitVec.eq_of_toNat_eq zero)
  have least : (1 : BitVec 32).toNat ≤ x.toNat := Nat.one_le_iff_ne_zero.mpr positive
  have minus : (x - 1).toNat = x.toNat - 1 := BitVec.toNat_sub_of_le (BitVec.le_def.mpr least)
  have bits : x.toNat &&& (x.toNat - 1) = 0 := by
    rw [← minus, ← BitVec.toNat_and, one]
    rfl
  obtain ⟨k, power⟩ := (Nat.and_sub_one_eq_zero_iff_isPowerOfTwo positive).mp bits
  obtain ⟨divides, odd⟩ := ctzsi2_spec some
  rw [power] at divides odd
  have within : ctzsi2 x ≤ k := (Nat.pow_dvd_pow_iff_le_right (by decide)).mp (Nat.dvd_of_mod_eq_zero divides)
  have exponent : ctzsi2 x = k := by
    rw [Nat.pow_div within (by decide)] at odd
    by_contra other
    have even : 2 ^ (k - ctzsi2 x) % 2 = 0 := by
      rw [← Nat.succ_pred_eq_of_pos (by omega : 0 < k - ctzsi2 x), Nat.pow_succ]
      exact Nat.mul_mod_left ..
    omega
  have small : 2 ^ k < 2 ^ 32 := power ▸ x.isLt
  rw [exponent, minus, power]
  exact ⟨rfl, rfl, (Nat.pow_lt_pow_iff_right (by decide)).mp small⟩

/-- Without being a power of two, a word is not one. -/
theorem clzsi2_lt_of_and_sub_one {x : BitVec 32} (some : x ≠ 0) (several : x &&& (x - 1) ≠ 0) : clzsi2 x ≤ 30 := by
  obtain ⟨inside, least, most⟩ := clzsi2_spec some
  by_contra large
  have last : clzsi2 x = 31 := by omega
  rw [last] at least most
  have one : x.toNat = 1 := by omega
  obtain rfl : x = 1 := BitVec.eq_of_toNat_eq one
  exact several (by decide)

/-! ## The branches -/

section Branches

variable {a b : BitVec 64}

theorem toNat_setWidth_word (x : BitVec 32) : (x.setWidth 64).toNat = x.toNat := BitVec.toNat_setWidth_of_le (by decide)

/-- The divisor is a power of two above the lower word. -/
theorem divMod_high_power (low : (UDWords.ofAll b).low = 0) (some : (UDWords.ofAll b).high ≠ 0)
    (one : (UDWords.ofAll b).high &&& ((UDWords.ofAll b).high - 1) = 0) :
    ((((UDWords.ofAll a).high >>> ctzsi2 (UDWords.ofAll b).high).setWidth 64 : BitVec 64),
      UDWords.all ⟨(UDWords.ofAll a).high &&& ((UDWords.ofAll b).high - 1), (UDWords.ofAll a).low⟩) = (a / b, a % b) := by
  obtain ⟨power, minus, _⟩ := toNat_of_and_sub_one some one
  have dividend := toNat_halves a
  have divisor : b.toNat = 2 ^ 32 * 2 ^ ctzsi2 (UDWords.ofAll b).high := by
    rw [toNat_halves b, low, power, Nat.mul_comm (2 ^ 32)]
    exact Nat.add_zero _
  have small := (UDWords.ofAll a).low.isLt
  have upper : a.toNat / 2 ^ 32 = (UDWords.ofAll a).high.toNat := by omega
  have lower : a.toNat % 2 ^ 32 = (UDWords.ofAll a).low.toNat := by omega
  refine divMod_eq ?_ ?_
  · rw [toNat_setWidth_word, BitVec.toNat_ushiftRight, Nat.shiftRight_eq_div_pow, divisor,
      ← Nat.div_div_eq_div_mul, upper]
  · rw [UDWords.toNat_all, divisor, Nat.mod_mul, lower, upper, BitVec.toNat_and, minus, Nat.and_two_pow_sub_one_eq_mod]
    ring

/-- Dividend and divisor have no lower word. -/
theorem divMod_high (lowA : (UDWords.ofAll a).low = 0) (lowB : (UDWords.ofAll b).low = 0) :
    ((((UDWords.ofAll a).high / (UDWords.ofAll b).high).setWidth 64 : BitVec 64),
      UDWords.all ⟨(UDWords.ofAll a).high % (UDWords.ofAll b).high, 0⟩) = (a / b, a % b) := by
  have dividend : a.toNat = (UDWords.ofAll a).high.toNat * 2 ^ 32 := by
    rw [toNat_halves a, lowA]
    exact Nat.add_zero _
  have divisor : b.toNat = (UDWords.ofAll b).high.toNat * 2 ^ 32 := by
    rw [toNat_halves b, lowB]
    exact Nat.add_zero _
  refine divMod_eq ?_ ?_
  · rw [toNat_setWidth_word, BitVec.toNat_udiv, dividend, divisor, Nat.mul_div_mul_right _ _ (by decide)]
  · rw [UDWords.toNat_all, BitVec.toNat_umod, dividend, divisor, Nat.mul_mod_mul_right]
    exact Nat.add_zero _

/-- Dividend and divisor have no upper word. -/
theorem divMod_low (highA : (UDWords.ofAll a).high = 0) (highB : (UDWords.ofAll b).high = 0) :
    ((((UDWords.ofAll a).low / (UDWords.ofAll b).low).setWidth 64 : BitVec 64),
      (((UDWords.ofAll a).low % (UDWords.ofAll b).low).setWidth 64 : BitVec 64)) = (a / b, a % b) := by
  have dividend : a.toNat = (UDWords.ofAll a).low.toNat := by
    rw [toNat_halves a, highA]
    exact Nat.zero_add _
  have divisor : b.toNat = (UDWords.ofAll b).low.toNat := by
    rw [toNat_halves b, highB]
    exact Nat.zero_add _
  refine divMod_eq ?_ ?_
  · rw [toNat_setWidth_word, BitVec.toNat_udiv, dividend, divisor]
  · rw [toNat_setWidth_word, BitVec.toNat_umod, dividend, divisor]

/-- The divisor is a power of two in the lower word. -/
theorem divMod_low_power (high : (UDWords.ofAll b).high = 0) (some : (UDWords.ofAll b).low ≠ 0)
    (one : (UDWords.ofAll b).low &&& ((UDWords.ofAll b).low - 1) = 0) {q : BitVec 64}
    (shifted : q = a >>> ctzsi2 (UDWords.ofAll b).low) :
    (q, (((UDWords.ofAll a).low &&& ((UDWords.ofAll b).low - 1)).setWidth 64 : BitVec 64)) = (a / b, a % b) := by
  obtain ⟨power, minus, inside⟩ := toNat_of_and_sub_one some one
  have divisor : b.toNat = 2 ^ ctzsi2 (UDWords.ofAll b).low := by
    rw [toNat_halves b, high, power]
    exact Nat.zero_add _
  refine divMod_eq ?_ ?_
  · rw [shifted, BitVec.toNat_ushiftRight, Nat.shiftRight_eq_div_pow, divisor]
  · have split : 2 ^ 32 = 2 ^ ctzsi2 (UDWords.ofAll b).low * 2 ^ (32 - ctzsi2 (UDWords.ofAll b).low) := by
      rw [← Nat.pow_add]
      congr 1
      omega
    have low : (UDWords.ofAll a).low.toNat = a.toNat % 2 ^ 32 := by
      have halves := toNat_halves a
      have small := (UDWords.ofAll a).low.isLt
      omega
    rw [toNat_setWidth_word, BitVec.toNat_and, minus, Nat.and_two_pow_sub_one_eq_mod, divisor, low, split,
      Nat.mod_mul_right_mod]

end Branches

theorem UDWords.ofAll_high_eq_zero {a : BitVec 64} (high : (UDWords.ofAll a).high = 0) :
    ((UDWords.ofAll a).low.setWidth 64 : BitVec 64) = a := by
  refine BitVec.eq_of_toNat_eq ?_
  rw [toNat_setWidth_word, toNat_halves a, high]
  exact (Nat.zero_add _).symm

/-- `__udivmoddi4` divides, and is undefined exactly for the divisor zero. -/
theorem udivmoddi4_eq (a b : BitVec 64) : udivmoddi4 a b = if b = 0 then none else some (a / b, a % b) := by
  have zero : b = 0 ↔ (UDWords.ofAll b).high = 0 ∧ (UDWords.ofAll b).low = 0 := ofAll_zero
  unfold udivmoddi4
  simp only
  by_cases highA : (UDWords.ofAll a).high = 0
  · rw [if_pos highA]
    by_cases highB : (UDWords.ofAll b).high = 0
    · rw [if_pos highB]
      unfold modWord divWord
      by_cases lowB : (UDWords.ofAll b).low = 0
      · rw [if_pos lowB, if_pos (zero.mpr ⟨highB, lowB⟩)]
        rfl
      · rw [if_neg lowB, if_neg lowB, if_neg (mt zero.mp fun both => lowB both.2), ← divMod_low highA highB]
        rfl
    · rw [if_neg highB, if_neg (mt zero.mp fun both => highB both.1), UDWords.ofAll_high_eq_zero highA]
      congr 1
      have least : 2 ^ 32 ≤ b.toNat := by
        have positive : (UDWords.ofAll b).high.toNat ≠ 0 := fun none => highB (BitVec.eq_of_toNat_eq none)
        have halves := toNat_halves b
        omega
      have most : a.toNat < 2 ^ 32 := by
        rw [toNat_halves a, highA]
        have small := (UDWords.ofAll a).low.isLt
        change 0 * 2 ^ 32 + _ < _
        omega
      exact divMod_of_lt (Nat.lt_of_lt_of_le most least)
  · rw [if_neg highA]
    have dividend := leadingZeros_high highA
    have insideN := (clzsi2_spec highA).inside
    by_cases lowB : (UDWords.ofAll b).low = 0
    · rw [if_pos lowB]
      by_cases highB : (UDWords.ofAll b).high = 0
      · rw [if_pos highB, if_pos (zero.mpr ⟨highB, lowB⟩)]
        unfold modWord
        rw [if_pos lowB]
        rfl
      · rw [if_neg highB, if_neg (mt zero.mp fun both => highB both.1)]
        have divisor := leadingZeros_high highB
        by_cases lowA : (UDWords.ofAll a).low = 0
        · rw [if_pos lowA, ← divMod_high lowA lowB]
          unfold modWord divWord
          rw [if_neg highB, if_neg highB]
          rfl
        · rw [if_neg lowA]
          by_cases one : (UDWords.ofAll b).high &&& ((UDWords.ofAll b).high - 1) = 0
          · rw [if_pos one, ← divMod_high_power lowB highB one]
            unfold shr
            rw [if_pos (toNat_of_and_sub_one highB one).2.2]
            rfl
          · have short := clzsi2_lt_of_and_sub_one highB one
            rw [if_neg one, clzDiff_eq highB highA]
            by_cases order : clzsi2 (UDWords.ofAll a).high ≤ clzsi2 (UDWords.ofAll b).high
            · have below : clzsi2 (UDWords.ofAll b).high - clzsi2 (UDWords.ofAll a).high + 1 < 32 := by omega
              rw [if_pos order, if_neg (by omega)]
              obtain ⟨q, r, split, rest, bits⟩ := splitBelow_spec a (Nat.succ_pos _) below
              rw [split]
              exact congrArg some (finish_aligned dividend divisor order rfl rest bits)
            · rw [if_neg order, if_pos (by omega), divMod_of_lt (lt_of_leadingZeros dividend divisor (Nat.not_le.mp order))]
    · rw [if_neg lowB, if_neg (mt zero.mp fun both => lowB both.2)]
      by_cases highB : (UDWords.ofAll b).high = 0
      · rw [if_pos highB]
        have divisor := leadingZeros_low highB lowB
        by_cases one : (UDWords.ofAll b).low &&& ((UDWords.ofAll b).low - 1) = 0
        · rw [if_pos one]
          obtain ⟨power, _, inside⟩ := toNat_of_and_sub_one lowB one
          by_cases same : (UDWords.ofAll b).low = 1
          · rw [if_pos same, divMod_low_power highB lowB one]
            rw [same]
            exact (BitVec.ushiftRight_zero a).symm
          · have positive : 0 < ctzsi2 (UDWords.ofAll b).low := by
              by_contra none
              rw [Nat.eq_zero_of_not_pos none] at power
              exact same (BitVec.eq_of_toNat_eq power)
            rw [if_neg same, ← divMod_low_power highB lowB one (all_shiftRight a inside)]
            unfold shr shl
            rw [if_pos inside, if_pos inside, if_pos (by omega)]
            rfl
        · have short := clzsi2_lt_of_and_sub_one lowB one
          have distance : (1 + 32 + BitVec.ofNat 32 (clzsi2 (UDWords.ofAll b).low) -
              BitVec.ofNat 32 (clzsi2 (UDWords.ofAll a).high)).toNat =
              32 + clzsi2 (UDWords.ofAll b).low - clzsi2 (UDWords.ofAll a).high + 1 := by
            rw [BitVec.toNat_sub, BitVec.toNat_add, BitVec.toNat_ofNat, BitVec.toNat_ofNat]
            have base : (1 + 32 : BitVec 32).toNat = 33 := rfl
            rw [base]
            omega
          rw [if_neg one, distance]
          have order : clzsi2 (UDWords.ofAll a).high ≤ 32 + clzsi2 (UDWords.ofAll b).low := by omega
          by_cases middle : 32 + clzsi2 (UDWords.ofAll b).low - clzsi2 (UDWords.ofAll a).high + 1 = 32
          · rw [if_pos middle, middle]
            obtain ⟨rest, bits⟩ := splitAt32_spec a
            exact congrArg some (finish_aligned dividend divisor order middle.symm rest bits)
          · rw [if_neg middle]
            split
            · next below =>
                obtain ⟨q, r, split, rest, bits⟩ := splitBelow_spec a (Nat.succ_pos _) below
                rw [split]
                exact congrArg some (finish_aligned dividend divisor order rfl rest bits)
            · next above =>
                obtain ⟨q, r, split, rest, bits⟩ := splitAbove_spec a (by omega :
                  32 < 32 + clzsi2 (UDWords.ofAll b).low - clzsi2 (UDWords.ofAll a).high + 1) (by omega)
                rw [split]
                exact congrArg some (finish_aligned dividend divisor order rfl rest bits)
      · rw [if_neg highB, clzDiff_eq highB highA]
        have divisor := leadingZeros_high highB
        have insideD := (clzsi2_spec highB).inside
        by_cases order : clzsi2 (UDWords.ofAll a).high ≤ clzsi2 (UDWords.ofAll b).high
        · rw [if_pos order, if_neg (by omega)]
          by_cases middle : clzsi2 (UDWords.ofAll b).high - clzsi2 (UDWords.ofAll a).high + 1 = 32
          · rw [if_pos middle, middle]
            obtain ⟨rest, bits⟩ := splitAt32_spec a
            exact congrArg some (finish_aligned dividend divisor order middle.symm rest bits)
          · rw [if_neg middle]
            have below : clzsi2 (UDWords.ofAll b).high - clzsi2 (UDWords.ofAll a).high + 1 < 32 := by omega
            obtain ⟨q, r, split, rest, bits⟩ := splitBelow_spec a (Nat.succ_pos _) below
            rw [split]
            exact congrArg some (finish_aligned dividend divisor order rfl rest bits)
        · rw [if_neg order, if_pos (by omega), divMod_of_lt (lt_of_leadingZeros dividend divisor (Nat.not_le.mp order))]

/-! ## Signed division -/

/-- `(x ^ s) - s` in every bit. -/
theorem xor_allOnes_sub (x : BitVec 64) : (x ^^^ BitVec.allOnes 64) - BitVec.allOnes 64 = -x := by
  rw [BitVec.xor_allOnes, BitVec.neg_eq_not_add]
  exact BitVec.sub_eq_add_neg ..

theorem xor_zero_sub (x : BitVec 64) : (x ^^^ 0#64) - 0#64 = x := by rw [BitVec.xor_zero, BitVec.sub_zero]

/-- The least number is the one whose negation overflows. -/
theorem negateIf_allOnes (x : BitVec 64) :
    negateIf (BitVec.allOnes 64) x = if x = BitVec.intMin 64 then none else some (-x) := by
  have overflow : (x ^^^ BitVec.allOnes 64).ssubOverflow (BitVec.allOnes 64) = true ↔ x = BitVec.intMin 64 := by
    rw [BitVec.ssubOverflow_eq, xor_allOnes_sub, BitVec.xor_allOnes, BitVec.msb_not, BitVec.msb_allOnes (by decide),
      BitVec.msb_neg]
    constructor
    · intro set
      by_contra other
      by_cases zero : x = 0#64
      · subst zero
        exact absurd set (by decide)
      · cases sign : x.msb <;> simp [sign, other, zero] at set
    · rintro rfl
      decide
  unfold negateIf subSigned
  rw [xor_allOnes_sub]
  exact if_congr overflow rfl rfl

theorem negateIf_zero (x : BitVec 64) : negateIf 0#64 x = some x := by
  have none : (x ^^^ 0#64).ssubOverflow 0#64 = false := by
    rw [BitVec.ssubOverflow_eq, xor_zero_sub, BitVec.xor_zero]
    cases x.msb <;> rfl
  unfold negateIf subSigned
  rw [none, xor_zero_sub]
  rfl

theorem negateIf_sign (a x : BitVec 64) : negateIf (a.sshiftRight 63) x =
    if a.msb ∧ x = BitVec.intMin 64 then none else some (if a.msb then -x else x) := by
  rw [sshiftRight_63]
  cases a.msb with
  | true => simpa using negateIf_allOnes x
  | false => simpa using negateIf_zero x

/-- The magnitude of a number. -/
theorem negateIf_own (a : BitVec 64) : negateIf (a.sshiftRight 63) a =
    if a = BitVec.intMin 64 then none else some (if a.msb then -a else a) := by
  rw [negateIf_sign]
  refine if_congr ⟨And.right, fun least => ⟨?_, least⟩⟩ rfl rfl
  rw [least]
  rfl

theorem abs_eq_zero (b : BitVec 64) : (if b.msb then -b else b) = 0 ↔ b = 0 := by
  split
  · exact BitVec.neg_eq_zero_iff
  · rfl

/-- No routine on signed numbers is defined here. -/
def Undivided (a b : BitVec 64) : Prop := b = 0 ∨ a = BitVec.intMin 64 ∨ b = BitVec.intMin 64

instance (a b : BitVec 64) : Decidable (Undivided a b) := inferInstanceAs (Decidable (_ ∨ _))

theorem divdi3_eq (a b : BitVec 64) : divdi3 a b = if Undivided a b then none else some (a.sdiv b) := by
  unfold divdi3
  simp only
  rw [negateIf_own, negateIf_own]
  by_cases leastA : a = BitVec.intMin 64
  · have undivided : Undivided a b := .inr (.inl leastA)
    rw [if_pos leastA, if_pos undivided]
    rfl
  by_cases leastB : b = BitVec.intMin 64
  · have undivided : Undivided a b := .inr (.inr leastB)
    rw [if_neg leastA, if_pos leastB, if_pos undivided]
    rfl
  rw [if_neg leastA, if_neg leastB]
  simp only [Option.bind_eq_bind, Option.bind_some]
  rw [udivmoddi4_eq]
  by_cases zero : b = 0
  · have undivided : Undivided a b := .inl zero
    rw [if_pos undivided, if_pos ((abs_eq_zero b).mpr zero)]
    rfl
  · have defined : ¬Undivided a b := fun undivided => undivided.elim zero (Or.elim · leastA leastB)
    rw [if_neg defined, if_neg (mt (abs_eq_zero b).mp zero), sshiftRight_63, sshiftRight_63]
    refine congrArg some ?_
    rw [BitVec.sdiv_eq]
    cases a.msb <;> cases b.msb
    · exact xor_zero_sub _
    · exact xor_allOnes_sub _
    · exact xor_allOnes_sub _
    · exact xor_zero_sub _

/-- A remainder is below the magnitude of the divisor, so that its negation does not overflow. -/
theorem umod_abs_ne_intMin (x b : BitVec 64) (zero : b ≠ 0) (least : b ≠ BitVec.intMin 64) :
    x % (if b.msb then -b else b) ≠ BitVec.intMin 64 := by
  have positive : (if b.msb then -b else b).toNat ≠ 0 := fun none =>
    zero ((abs_eq_zero b).mp (BitVec.eq_of_toNat_eq none))
  have below : (x % (if b.msb then -b else b)).toNat < (if b.msb then -b else b).toNat := by
    rw [BitVec.toNat_umod]
    exact Nat.mod_lt _ (Nat.pos_of_ne_zero positive)
  have small : (if b.msb then -b else b).msb = false := by
    cases sign : b.msb with
    | true => simp [sign, least]
    | false => simpa using sign
  have short := BitVec.toNat_lt_of_msb_false small
  intro same
  rw [same] at below
  have value : (BitVec.intMin 64).toNat = 2 ^ (64 - 1) := rfl
  omega

theorem moddi3_eq (a b : BitVec 64) : moddi3 a b = if Undivided a b then none else some (a.srem b) := by
  unfold moddi3
  simp only
  rw [negateIf_own, negateIf_own]
  by_cases leastB : b = BitVec.intMin 64
  · have undivided : Undivided a b := .inr (.inr leastB)
    rw [if_pos leastB, if_pos undivided]
    rfl
  by_cases leastA : a = BitVec.intMin 64
  · have undivided : Undivided a b := .inr (.inl leastA)
    rw [if_neg leastB, if_pos leastA, if_pos undivided]
    rfl
  rw [if_neg leastB, if_neg leastA]
  simp only [Option.bind_eq_bind, Option.bind_some]
  rw [udivmoddi4_eq]
  by_cases zero : b = 0
  · have undivided : Undivided a b := .inl zero
    rw [if_pos undivided, if_pos ((abs_eq_zero b).mpr zero)]
    rfl
  · have defined : ¬Undivided a b := fun undivided => undivided.elim zero (Or.elim · leastA leastB)
    have small := umod_abs_ne_intMin (if a.msb then -a else a) b zero leastB
    rw [if_neg defined, if_neg (mt (abs_eq_zero b).mp zero)]
    simp only [Option.bind_some]
    rw [negateIf_sign, if_neg fun both => small both.2]
    refine congrArg some ?_
    rw [BitVec.srem_eq]
    cases a.msb <;> cases b.msb <;> rfl

/-! ## Quotient and remainder -/

theorem umod_eq_sub (x y : BitVec 64) : x % y = x - x / y * y := by
  have parts : x = x / y * y + x % y := by
    refine BitVec.eq_of_toNat_eq ?_
    rw [BitVec.toNat_add, BitVec.toNat_mul, BitVec.toNat_udiv, BitVec.toNat_umod, Nat.mod_add_mod, Nat.mul_comm,
      Nat.div_add_mod, Nat.mod_eq_of_lt x.isLt]
  exact eq_sub_of_add_eq' parts.symm

/-- Quotient and remainder of the signed division make up the dividend. -/
theorem srem_eq_sub (a b : BitVec 64) : a.srem b = a - a.sdiv b * b := by
  rw [BitVec.srem_eq, BitVec.sdiv_eq]
  cases a.msb <;> cases b.msb <;> simp only [BitVec.udiv_eq, umod_eq_sub] <;> ring

theorem natAbs_toInt_lt {a : BitVec 64} (least : a ≠ BitVec.intMin 64) : a.toInt.natAbs < 2 ^ 63 := by
  have low := BitVec.le_toInt a
  have high := BitVec.toInt_lt (x := a)
  have apart : a.toInt ≠ (BitVec.intMin 64).toInt := mt BitVec.eq_of_toInt_eq least
  have value : (BitVec.intMin 64).toInt = -2 ^ 63 := rfl
  omega

/-- Multiplying the quotient again leads no farther than the dividend. -/
theorem mulSigned_sdiv {a b : BitVec 64} (least : a ≠ BitVec.intMin 64) :
    mulSigned (a.sdiv b) b = some (a.sdiv b * b) ∧ (a.sdiv b * b).toInt = a.toInt.tdiv b.toInt * b.toInt := by
  have quotient := BitVec.toInt_sdiv_of_ne_or_ne a b (.inl least)
  have short : (a.toInt.tdiv b.toInt * b.toInt).natAbs ≤ a.toInt.natAbs := by
    rw [Int.natAbs_mul, Int.natAbs_tdiv]
    exact Nat.div_mul_le_self ..
  have inside := natAbs_toInt_lt least
  have none : ¬(a.sdiv b).smulOverflow b := by
    unfold BitVec.smulOverflow
    rw [quotient]
    simp only [Bool.or_eq_true, decide_eq_true_eq, not_or]
    omega
  exact ⟨if_neg none, by rw [BitVec.toInt_mul_of_not_smulOverflow none, quotient]⟩

theorem subSigned_sdiv {a b : BitVec 64} (least : a ≠ BitVec.intMin 64) :
    subSigned a (a.sdiv b * b) = some (a.srem b) := by
  have inside := natAbs_toInt_lt least
  have rest : a.toInt - a.toInt.tdiv b.toInt * b.toInt = a.toInt.tmod b.toInt := by
    rw [Int.tmod_def, Int.mul_comm]
  have short : (a.toInt.tmod b.toInt).natAbs ≤ a.toInt.natAbs := by
    rw [Int.natAbs_tmod]
    exact Nat.mod_le ..
  have none : ¬a.ssubOverflow (a.sdiv b * b) := by
    unfold BitVec.ssubOverflow
    rw [(mulSigned_sdiv least).2, rest]
    simp only [Bool.or_eq_true, decide_eq_true_eq, not_or]
    omega
  rw [srem_eq_sub]
  exact if_neg none

theorem divmoddi4_eq (a b : BitVec 64) :
    divmoddi4 a b = if Undivided a b then none else some (a.sdiv b, a.srem b) := by
  unfold divmoddi4
  rw [divdi3_eq]
  by_cases undivided : Undivided a b
  · rw [if_pos undivided, if_pos undivided]
    rfl
  · have least : a ≠ BitVec.intMin 64 := fun same => undivided (.inr (.inl same))
    rw [if_neg undivided, if_neg undivided]
    simp only [Option.bind_eq_bind, Option.bind_some]
    rw [(mulSigned_sdiv least).1, Option.bind_some, subSigned_sdiv least, Option.bind_some]

/-- Every routine computes quotients rounded towards zero and the remainders that belong to them. They are undefined for
the divisor zero, and those on signed numbers also where an operand is the least number. -/
theorem int64_divides (a b : BitVec 64) :
    udivmoddi4 a b = (if b = 0 then none else some (a / b, a % b)) ∧
    udivdi3 a b = (if b = 0 then none else some (a / b)) ∧
    umoddi3 a b = (if b = 0 then none else some (a % b)) ∧
    divdi3 a b = (if Undivided a b then none else some (a.sdiv b)) ∧
    moddi3 a b = (if Undivided a b then none else some (a.srem b)) ∧
    divmoddi4 a b = (if Undivided a b then none else some (a.sdiv b, a.srem b)) := by
  refine ⟨udivmoddi4_eq a b, ?_, ?_, divdi3_eq a b, moddi3_eq a b, divmoddi4_eq a b⟩
  · unfold udivdi3
    rw [udivmoddi4_eq]
    split <;> rfl
  · unfold umoddi3
    rw [udivmoddi4_eq]
    split <;> rfl

end Sustemu.Runtime
