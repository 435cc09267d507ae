import Sustemu.Lib.Copy

/-!
# `memset`, `memmove` and `memcpy`

`klib/src/string.c`. An object does not wrap around the end of the address
space, so that a pointer is a natural number. Each loop returns what is left of
`n`, the pointers and the memory.
-/

set_option autoImplicit false

namespace Sustemu.Runtime

open Lib

/-! ## Filling -/

/-- `while (n > 0 && ((uintptr_t)d & 7)) { *d++ = b; n--; }` -/
def fillHead (b : Byte) : Nat → Nat → ByteMem → Nat × Nat × ByteMem
  | 0, d, mem => (0, d, mem)
  | n + 1, d, mem => if d % 8 ≠ 0 then fillHead b n (d + 1) (setAt mem d b) else (n + 1, d, mem)

/-- `for (size_t i = 0; i < words; i++) p[i] = w;` -/
def fillWords (w : BitVec 64) : Nat → Nat → ByteMem → ByteMem
  | 0, _, mem => mem
  | words + 1, p, mem => fillWords w words (p + 8) (storeLE mem p 8 w)

/-- `while (n--) *d++ = b;` -/
def fillTail (b : Byte) : Nat → Nat → ByteMem → ByteMem
  | 0, _, mem => mem
  | n + 1, d, mem => fillTail b n (d + 1) (setAt mem d b)

def memset (mem : ByteMem) (s : Nat) (c : BitVec 32) (n : Nat) : Nat × ByteMem :=
  let b := c.setWidth 8
  let (n, d, mem) := fillHead b n s mem
  let (n, d, mem) :=
    if 8 ≤ n then
      let w := b.setWidth 64 * 0x0101010101010101
      let words := n / 8
      (n % 8, d + words * 8, fillWords w words d mem)
    else (n, d, mem)
  (s, fillTail b n d mem)

/-! ## Copying -/

/-- `while (n > 0 && ((uintptr_t)d & 7)) { *d++ = *s++; n--; }` -/
def copyHead : Nat → Nat → Nat → ByteMem → Nat × Nat × Nat × ByteMem
  | 0, d, s, mem => (0, d, s, mem)
  | n + 1, d, s, mem =>
      if d % 8 ≠ 0 then copyHead n (d + 1) (s + 1) (setAt mem d (mem s)) else (n + 1, d, s, mem)

/-- `while (n >= 8) { *pd++ = *ps++; n -= 8; }` -/
def copyWords (n pd ps : Nat) (mem : ByteMem) : Nat × Nat × Nat × ByteMem :=
  if 8 ≤ n then copyWords (n - 8) (pd + 8) (ps + 8) (storeLE mem pd 8 (loadLE mem ps 8)) else (n, pd, ps, mem)

/-- `while (n--) *d++ = *s++;` -/
def copyTail : Nat → Nat → Nat → ByteMem → ByteMem
  | 0, _, _, mem => mem
  | n + 1, d, s, mem => copyTail n (d + 1) (s + 1) (setAt mem d (mem s))

/-- `while (n--) *--d = *--s;` -/
def copyBack : Nat → Nat → Nat → ByteMem → ByteMem
  | 0, _, _, mem => mem
  | n + 1, d, s, mem => copyBack n (d - 1) (s - 1) (setAt mem (d - 1) (mem (s - 1)))

/-- The forward copy, which `memmove` and `memcpy` share. -/
def copyForward (n d s : Nat) (mem : ByteMem) : ByteMem :=
  let (n, d, s, mem) := copyHead n d s mem
  let (n, d, s, mem) := if s % 8 = 0 then copyWords n d s mem else (n, d, s, mem)
  copyTail n d s mem

def memmove (mem : ByteMem) (dst src n : Nat) : Nat × ByteMem :=
  if dst = src ∨ n = 0 then (dst, mem)
  else if dst < src ∨ src + n ≤ dst then (dst, copyForward n dst src mem)
  else (dst, copyBack n (dst + n) (src + n) mem)

def memcpy (mem : ByteMem) (out inp n : Nat) : Nat × ByteMem := (out, copyForward n out inp mem)

/-! ## The loops -/

theorem fillHead_eq (b : Byte) (n d : Nat) (mem : ByteMem) : ∃ k ≤ n, fillHead b n d mem = (n - k, d + k, fill mem d k b) := by
  induction n generalizing d mem with
  | zero => exact ⟨0, Nat.le_refl 0, by rw [fill_zero]; rfl⟩
  | succ n ih =>
      unfold fillHead
      split
      · obtain ⟨k, inside, done⟩ := ih (d + 1) (setAt mem d b)
        refine ⟨1 + k, by omega, ?_⟩
        rw [done, fill_one, fill_append, Nat.add_assoc, Nat.add_comm n 1, Nat.add_sub_add_left]
      · exact ⟨0, Nat.zero_le _, by rw [fill_zero]; rfl⟩

theorem byteOf_repeat (b : Byte) : ∀ position < 8, byteOf (b.setWidth 64 * 0x0101010101010101) position = b := by
  revert b
  decide +kernel

theorem fillWords_eq (b : Byte) (words p : Nat) (mem : ByteMem) :
    fillWords (b.setWidth 64 * 0x0101010101010101) words p mem = fill mem p (words * 8) b := by
  induction words generalizing p mem with
  | zero => rw [Nat.zero_mul, fill_zero]; rfl
  | succ words ih =>
      unfold fillWords
      rw [ih, storeLE_fill (byteOf_repeat b), fill_append, Nat.add_comm 8, ← Nat.succ_mul]

theorem fillTail_eq (b : Byte) (n d : Nat) (mem : ByteMem) : fillTail b n d mem = fill mem d n b := by
  induction n generalizing d mem with
  | zero => rw [fill_zero]; rfl
  | succ n ih =>
      unfold fillTail
      rw [ih, fill_one, fill_append, Nat.add_comm 1]

/-- Going upwards, no byte is written before it is read. -/
def Upward (d s n : Nat) : Prop := d ≤ s ∨ s + n ≤ d

variable {n d s : Nat}

theorem Upward.rest (upward : Upward d s n) {k : Nat} (inside : k ≤ n) : Upward (d + k) (s + k) (n - k) := by
  unfold Upward at upward ⊢
  omega

/-- A part of the copy and then the rest of it. -/
theorem Upward.append (upward : Upward d s n) (mem : ByteMem) {k l : Nat} (inside : k + l ≤ n) :
    copy (copy mem d s k) (d + k) (s + k) l = copy mem d s (k + l) :=
  copy_append (upward.imp_right fun apart => by omega)

theorem copyHead_eq (upward : Upward d s n) (mem : ByteMem) :
    ∃ k ≤ n, copyHead n d s mem = (n - k, d + k, s + k, copy mem d s k) := by
  induction n generalizing d s mem with
  | zero => exact ⟨0, Nat.le_refl 0, by rw [copy_zero]; rfl⟩
  | succ n ih =>
      unfold copyHead
      split
      · obtain ⟨k, inside, done⟩ := ih (upward.rest (Nat.le_add_left 1 n)) (setAt mem d (mem s))
        refine ⟨1 + k, by omega, ?_⟩
        rw [done, copy_one, upward.append mem (by omega), Nat.add_assoc, Nat.add_assoc, Nat.add_comm n 1, Nat.add_sub_add_left]
      · exact ⟨0, Nat.zero_le _, by rw [copy_zero]; rfl⟩

theorem copyWords_eq (upward : Upward d s n) (mem : ByteMem) :
    ∃ k ≤ n, copyWords n d s mem = (n - k, d + k, s + k, copy mem d s k) := by
  fun_induction copyWords n d s mem with
  | case1 n d s mem enough ih =>
      obtain ⟨k, inside, done⟩ := ih (upward.rest enough)
      refine ⟨8 + k, by omega, ?_⟩
      rw [done, storeLE_copy (Nat.le_refl 8), upward.append mem (by omega), Nat.add_assoc, Nat.add_assoc, Nat.sub_sub]
  | case2 n d s mem => exact ⟨0, Nat.zero_le _, by rw [copy_zero]; rfl⟩

theorem copyTail_eq (upward : Upward d s n) (mem : ByteMem) : copyTail n d s mem = copy mem d s n := by
  induction n generalizing d s mem with
  | zero => rw [copy_zero]; rfl
  | succ n ih =>
      unfold copyTail
      have rest : Upward (d + 1) (s + 1) n := upward.rest (Nat.le_add_left 1 n)
      rw [ih rest, copy_one, upward.append mem (by omega), Nat.add_comm 1]

theorem copyBack_eq (downward : s ≤ d) (mem : ByteMem) : copyBack n (d + n) (s + n) mem = copy mem d s n := by
  induction n generalizing mem with
  | zero => rw [copy_zero]; rfl
  | succ n ih =>
      unfold copyBack
      rw [← Nat.add_assoc, ← Nat.add_assoc, Nat.add_sub_cancel, Nat.add_sub_cancel, ih, copy_one, copy_prepend downward]

/-! ## The functions -/

theorem copyForward_eq (upward : Upward d s n) (mem : ByteMem) : copyForward n d s mem = copy mem d s n := by
  obtain ⟨k, inside, head⟩ := copyHead_eq upward mem
  have rest := upward.rest inside
  unfold copyForward
  rw [head]
  dsimp only
  split
  · obtain ⟨l, within, words⟩ := copyWords_eq rest (copy mem d s k)
    rw [words]
    dsimp only
    rw [copyTail_eq (rest.rest within), rest.append _ (by omega), upward.append mem (by omega)]
    exact congrArg (copy mem d s) (by omega)
  · dsimp only
    rw [copyTail_eq rest, upward.append mem (by omega)]
    exact congrArg (copy mem d s) (by omega)

theorem memset_eq (mem : ByteMem) (s : Nat) (c : BitVec 32) (n : Nat) : memset mem s c n = (s, fill mem s n (c.setWidth 8)) := by
  obtain ⟨k, inside, head⟩ := fillHead_eq (c.setWidth 8) n s mem
  unfold memset
  dsimp only
  rw [head]
  dsimp only
  split
  · dsimp only
    rw [fillWords_eq, fillTail_eq, fill_append, fill_append]
    exact congrArg (fun length => (s, fill mem s length (c.setWidth 8))) (by omega)
  · dsimp only
    rw [fillTail_eq, fill_append]
    exact congrArg (fun length => (s, fill mem s length (c.setWidth 8))) (by omega)

theorem memmove_eq (mem : ByteMem) (dst src n : Nat) : memmove mem dst src n = (dst, copy mem dst src n) := by
  unfold memmove
  split
  · next idle =>
      rcases idle with rfl | rfl
      · rw [copy_self]
      · rw [copy_zero]
  · split
    · next forward =>
        rw [copyForward_eq (forward.imp_left Nat.le_of_lt)]
    · next overlap =>
        rw [copyBack_eq (by omega)]

theorem memcpy_eq (mem : ByteMem) {out inp n : Nat} (apart : Apart out n inp n) : memcpy mem out inp n = (out, copy mem out inp n) := by
  unfold memcpy
  rw [copyForward_eq (apart.imp_left fun below => by omega)]

/-- The routines do byte by byte what they say, and nothing outside the destination changes. -/
theorem memory_routines_bytewise (mem : ByteMem) (n : Nat) :
    (∀ s c, memset mem s c n = (s, fun a => if s ≤ a ∧ a < s + n then c.setWidth 8 else mem a)) ∧
    (∀ dst src, memmove mem dst src n = (dst, fun a => if dst ≤ a ∧ a < dst + n then mem (src + (a - dst)) else mem a)) ∧
    ∀ out inp, Apart out n inp n →
      memcpy mem out inp n = (out, fun a => if out ≤ a ∧ a < out + n then mem (inp + (a - out)) else mem a) :=
  ⟨fun s c => memset_eq mem s c n, fun dst src => memmove_eq mem dst src n, fun _ _ apart => memcpy_eq mem apart⟩

theorem memory_routines_bytewise_words : (memcpy (fun a => BitVec.ofNat 8 a) 35 3 30).2 64 = 32 := by
  have copied := (memory_routines_bytewise (fun a => BitVec.ofNat 8 a) 30).2.2 35 3 (by decide)
  rw [copied]
  rfl

end Sustemu.Runtime
