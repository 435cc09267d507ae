import Sustemu.Lib.Bytes
import Sustemu.Lib.Update

/-!
# Regions of a byte memory

Filling and copying a region at once, whatever the source and the destination
share, and how both are done in two parts.
-/

set_option autoImplicit false

namespace Sustemu.Lib

/-- Every byte of `[d, d + n)` becomes `b`. -/
def fill (mem : ByteMem) (d n : Nat) (b : Byte) : ByteMem := fun a => if d ≤ a ∧ a < d + n then b else mem a

/-- The bytes of `[s, s + n)` are put at `d`. -/
def copy (mem : ByteMem) (d s n : Nat) : ByteMem := fun a => if d ≤ a ∧ a < d + n then mem (s + (a - d)) else mem a

variable {mem : ByteMem} {d s k l : Nat} {b : Byte}

@[simp] theorem fill_zero : fill mem d 0 b = mem := by
  funext a
  exact if_neg fun inside => absurd (Nat.lt_of_le_of_lt inside.1 inside.2) (Nat.lt_irrefl _)

@[simp] theorem copy_zero : copy mem d s 0 = mem := by
  funext a
  exact if_neg fun inside => absurd (Nat.lt_of_le_of_lt inside.1 inside.2) (Nat.lt_irrefl _)

theorem copy_self : copy mem d d k = mem := by
  funext a
  unfold copy
  split
  · next inside => exact congrArg mem (by omega)
  · rfl

theorem fill_one : setAt mem d b = fill mem d 1 b := by
  funext a
  unfold fill
  by_cases same : a = d
  · subst same
    rw [setAt_self, if_pos ⟨Nat.le_refl a, Nat.lt_succ_self a⟩]
  · rw [setAt_of_ne same, if_neg (by omega)]

theorem copy_one : setAt mem d (mem s) = copy mem d s 1 := by
  rw [fill_one]
  funext a
  unfold fill copy
  by_cases inside : d ≤ a ∧ a < d + 1
  · rw [if_pos inside, if_pos inside]
    exact congrArg mem (by omega)
  · rw [if_neg inside, if_neg inside]

theorem fill_append : fill (fill mem d k b) (d + k) l b = fill mem d (k + l) b := by
  funext a
  unfold fill
  by_cases upper : d + k ≤ a ∧ a < d + k + l
  · rw [if_pos upper, if_pos (by omega)]
  · rw [if_neg upper]
    by_cases lower : d ≤ a ∧ a < d + k
    · rw [if_pos lower, if_pos (by omega)]
    · rw [if_neg lower, if_neg (by omega)]

/-- A word that repeats a byte fills as many bytes as it has. -/
theorem storeLE_fill {word : BitVec 64} {width : Nat} (repeats : ∀ position < width, byteOf word position = b) :
    storeLE mem d width word = fill mem d width b := by
  funext a
  unfold storeLE fill
  by_cases inside : d ≤ a ∧ a < d + width
  · rw [if_pos inside, if_pos inside]
    exact repeats (a - d) (by omega)
  · rw [if_neg inside, if_neg inside]

theorem byteOf_loadLE (mem : ByteMem) (s : Nat) {position width : Nat} (narrow : width ≤ 8) (inside : position < width) :
    byteOf (loadLE mem s width) position = mem (s + position) := by
  apply BitVec.eq_of_getLsbD_eq
  intro bit low
  have byte : (8 * position + bit) / 8 = position := by omega
  have rest : (8 * position + bit) % 8 = bit := by omega
  have within : 8 * position + bit < 8 * width := by omega
  rw [getLsbD_byteOf, getLsbD_loadLE mem s width _ narrow, byte, rest]
  simp [low, within]

/-- The bytes of a word that is read and then written are read before any is written. -/
theorem storeLE_copy {width : Nat} (narrow : width ≤ 8) : storeLE mem d width (loadLE mem s width) = copy mem d s width := by
  funext a
  unfold storeLE copy
  by_cases inside : d ≤ a ∧ a < d + width
  · rw [if_pos inside, if_pos inside]
    exact byteOf_loadLE mem s narrow (by omega)
  · rw [if_neg inside, if_neg inside]

/-- Upwards: the lower part first. It does not reach what is still to be read. -/
theorem copy_append (upward : d ≤ s ∨ s + (k + l) ≤ d) : copy (copy mem d s k) (d + k) (s + k) l = copy mem d s (k + l) := by
  funext a
  unfold copy
  by_cases upper : d + k ≤ a ∧ a < d + k + l
  · rw [if_pos upper, if_neg (by omega), if_pos (by omega)]
    exact congrArg mem (by omega)
  · rw [if_neg upper]
    by_cases lower : d ≤ a ∧ a < d + k
    · rw [if_pos lower, if_pos (by omega)]
    · rw [if_neg lower, if_neg (by omega)]

/-- Downwards: the upper part first. -/
theorem copy_prepend (downward : s ≤ d) : copy (copy mem (d + k) (s + k) l) d s k = copy mem d s (k + l) := by
  funext a
  unfold copy
  by_cases lower : d ≤ a ∧ a < d + k
  · rw [if_pos lower, if_neg (by omega), if_pos (by omega)]
  · rw [if_neg lower]
    by_cases upper : d + k ≤ a ∧ a < d + k + l
    · rw [if_pos upper, if_pos (by omega)]
      exact congrArg mem (by omega)
    · rw [if_neg upper, if_neg (by omega)]

end Sustemu.Lib
