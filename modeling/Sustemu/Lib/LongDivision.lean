import Mathlib.Data.Nat.Bits
import Mathlib.Tactic.Ring

/-!
# Long division

Division of binary numbers from the top bit down. After the bits above the
lowest `k` have been brought down, quotient and remainder are those of the
number made of these bits. In a machine the bits still to be brought down and
the bits of the quotient share one register.
-/

set_option autoImplicit false

namespace Sustemu.Lib

/-- The bits of `n` from the `k`-th on have been divided by `d`. -/
structure Divided (n d k quot rem : Nat) : Prop where
  below : rem < d
  equation : n / 2 ^ k = quot * d + rem

namespace Divided

variable {n d k quot rem : Nat}

theorem init (small : n / 2 ^ k < d) : Divided n d k 0 (n / 2 ^ k) := ⟨small, by rw [Nat.zero_mul, Nat.zero_add]⟩

/-- The bit that is brought down next. -/
theorem next_bit (n k : Nat) : n / 2 ^ k = 2 * (n / 2 ^ (k + 1)) + n / 2 ^ k % 2 := by
  rw [Nat.pow_succ, ← Nat.div_div_eq_div_mul]
  omega

/-- The next bit is brought down, and the divisor is subtracted if it fits. -/
theorem step (divided : Divided n d (k + 1) quot rem) :
    if d ≤ 2 * rem + n / 2 ^ k % 2 then Divided n d k (2 * quot + 1) (2 * rem + n / 2 ^ k % 2 - d)
    else Divided n d k (2 * quot) (2 * rem + n / 2 ^ k % 2) := by
  obtain ⟨below, equation⟩ := divided
  have next := next_bit n k
  have bit : n / 2 ^ k % 2 < 2 := Nat.mod_lt _ (by decide)
  have doubled : 2 * (quot * d + rem) = 2 * quot * d + 2 * rem := by ring
  rw [equation, doubled] at next
  split
  · next fits =>
      refine ⟨by omega, ?_⟩
      rw [Nat.add_mul, Nat.one_mul]
      omega
  · next small => exact ⟨by omega, by omega⟩

/-- The remainder with the next bit is part of the number. -/
theorem shifted_le (divided : Divided n d (k + 1) quot rem) : 2 * rem + n / 2 ^ k % 2 ≤ n := by
  have next := next_bit n k
  rw [divided.equation] at next
  have part : n / 2 ^ k ≤ n := Nat.div_le_self ..
  omega

theorem done (divided : Divided n d 0 quot rem) : n / d = quot ∧ n % d = rem := by
  obtain ⟨below, equation⟩ := divided
  rw [Nat.pow_zero, Nat.div_one] at equation
  rw [Nat.div_mod_unique (Nat.zero_lt_of_lt below)]
  refine ⟨?_, below⟩
  rw [equation, Nat.mul_comm, Nat.add_comm]

end Divided

/-- A register of `w` bits holds the lowest `k` bits of `n` above the number `low`. -/
structure Packed (w n k low register : Nat) : Prop where
  short : k ≤ w
  fits : low < 2 ^ (w - k)
  split : register = n % 2 ^ k * 2 ^ (w - k) + low

namespace Packed

variable {w n k low register : Nat}

theorem init (short : k ≤ w) : Packed w n k 0 (n % 2 ^ k * 2 ^ (w - k)) := ⟨short, Nat.two_pow_pos _, rfl⟩

/-- The top bit of the register is the next one, and shifting the register by one makes room for one bit. -/
theorem step (packed : Packed w n (k + 1) low register) {bit : Nat} (small : bit < 2) :
    register / 2 ^ (w - 1) = n / 2 ^ k % 2 ∧ Packed w n k (2 * low + bit) ((2 * register + bit) % 2 ^ w) := by
  obtain ⟨short, fits, split⟩ := packed
  have width : w - k = w - (k + 1) + 1 := by omega
  have whole : 2 ^ k * 2 ^ (w - (k + 1)) = 2 ^ (w - 1) := by
    rw [← Nat.pow_add]
    congr 1
    omega
  have double : 2 ^ w = 2 * 2 ^ (w - 1) := by
    rw [← Nat.pow_succ']
    congr 1
    omega
  generalize tail : n % 2 ^ k = rest at *
  have lower : rest < 2 ^ k := tail ▸ Nat.mod_lt _ (Nat.two_pow_pos k)
  have parts : n % 2 ^ (k + 1) = n / 2 ^ k % 2 * 2 ^ k + rest := by
    rw [← tail, Nat.pow_succ, Nat.mod_mul, Nat.mul_comm (2 ^ k), Nat.add_comm]
  have room : rest * 2 ^ (w - (k + 1)) + low < 2 ^ (w - 1) := by
    calc rest * 2 ^ (w - (k + 1)) + low < rest * 2 ^ (w - (k + 1)) + 2 ^ (w - (k + 1)) := by omega
      _ = (rest + 1) * 2 ^ (w - (k + 1)) := by ring
      _ ≤ 2 ^ k * 2 ^ (w - (k + 1)) := Nat.mul_le_mul_right _ lower
      _ = 2 ^ (w - 1) := whole
  have top : register = n / 2 ^ k % 2 * 2 ^ (w - 1) + (rest * 2 ^ (w - (k + 1)) + low) := by
    rw [split, parts, Nat.add_mul, Nat.mul_assoc, whole, Nat.add_assoc]
  refine ⟨?_, by omega, ?_, ?_⟩
  · rw [top, Nat.add_comm, Nat.add_mul_div_right _ _ (Nat.two_pow_pos _), Nat.div_eq_of_lt room, Nat.zero_add]
  · rw [width, Nat.pow_succ]
    omega
  · have shifted : 2 * register + bit = n / 2 ^ k % 2 * 2 ^ w + (2 * (rest * 2 ^ (w - (k + 1)) + low) + bit) := by
      rw [top, double]
      ring
    rw [tail, width, Nat.pow_succ, shifted, Nat.add_comm, Nat.add_mul_mod_self_right, Nat.mod_eq_of_lt (by omega)]
    ring

/-- No bits are left: the register holds the number. -/
theorem done (packed : Packed w n 0 low register) : register = low := by
  rw [packed.split, Nat.pow_zero, Nat.mod_one, Nat.zero_mul, Nat.zero_add]

end Packed

end Sustemu.Lib
