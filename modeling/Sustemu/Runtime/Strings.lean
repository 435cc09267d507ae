import Sustemu.Lib.Bytes
import Sustemu.Lib.Update
import Mathlib.Data.Nat.Find

/-!
# `strncmp` and `strncpy`

The bounded functions of `klib/src/string.c`. A `char` is unsigned on the
guest's target. The comparison records the index of every character it reads, of
either string, in order.
-/

set_option autoImplicit false

namespace Sustemu.Runtime

open Lib

/-- A string in memory: its characters, with a terminator among them. -/
structure NulString where
  chars : Nat → Byte
  terminated : ∃ i, chars i = 0

/-! ## `strncmp` -/

/-- What a comparison returns, and the indices it reads. -/
structure Compared where
  result : Int
  reads : List Nat

/-- `s1[i] - s2[i]`. -/
def charDifference (s1 s2 : NulString) (i : Nat) : Int := (s1.chars i).toNat - (s2.chars i).toNat

/-- The loop of `strncmp` from `i` on, where `left` is `n - i`. -/
def strncmpLoop (s1 s2 : NulString) : Nat → Nat → List Nat → Compared
  | 0, i, reads => ⟨charDifference s1 s2 i, reads ++ [i, i]⟩
  | left + 1, i, reads =>
      if s1.chars i = 0 then ⟨charDifference s1 s2 i, reads ++ [i] ++ [i, i]⟩
      else if s2.chars i = 0 then ⟨charDifference s1 s2 i, reads ++ [i, i] ++ [i, i]⟩
      else if s1.chars i = s2.chars i then strncmpLoop s1 s2 left (i + 1) (reads ++ [i, i, i, i])
      else ⟨charDifference s1 s2 i, reads ++ [i, i, i, i] ++ [i, i]⟩

def strncmp (s1 s2 : NulString) (n : Nat) : Compared := strncmpLoop s1 s2 n 0 []

/-! ## `strncpy` -/

/-- `for (i = 0; i < n && src[i] != '\0'; i++) dst[i] = src[i];` from `i` on, where `left` is `n - i`. -/
def strncpyCopy (src : NulString) : Nat → Nat → (Nat → Byte) → Nat × (Nat → Byte)
  | 0, i, dst => (i, dst)
  | left + 1, i, dst =>
      if src.chars i = 0 then (i, dst) else strncpyCopy src left (i + 1) (setAt dst i (src.chars i))

/-- `for ( ; i < n; i++) dst[i] = '\0';` -/
def strncpyPad : Nat → Nat → (Nat → Byte) → Nat × (Nat → Byte)
  | 0, i, dst => (i, dst)
  | left + 1, i, dst => strncpyPad left (i + 1) (setAt dst i 0)

/-- `strncpy`: what the destination holds afterwards. -/
def strncpy (dst : Nat → Byte) (src : NulString) (n : Nat) : Nat → Byte :=
  let (i, dst) := strncpyCopy src n 0 dst
  let (i, dst) := strncpyPad (n - i) i dst
  if n > 0 then setAt dst (i - 1) 0 else dst

/-! ## The contracts -/

/-- The strings agree on the first `n` characters, or on those up to a common terminator. -/
def SamePrefix (s1 s2 : NulString) (n : Nat) : Prop :=
  ∀ i < n, (∀ j < i, s1.chars j ≠ 0) → s1.chars i = s2.chars i

/-- The first difference of the strings. -/
structure FirstDifference (s1 s2 : NulString) (i : Nat) : Prop where
  differ : s1.chars i ≠ s2.chars i
  before : ∀ j < i, s1.chars j = s2.chars j ∧ s1.chars j ≠ 0

structure StrncmpContract (s1 s2 : NulString) (n : Nat) : Prop where
  zero : (strncmp s1 s2 n).result = 0 ↔ SamePrefix s1 s2 n
  sign : ∀ i < n, FirstDifference s1 s2 i → (strncmp s1 s2 n).result.sign = (charDifference s1 s2 i).sign
  reads : ∀ i ∈ (strncmp s1 s2 n).reads, i < n

/-- The length of the string is more than `i`. -/
def NulString.Reaches (s : NulString) (i : Nat) : Prop := ∀ j ≤ i, s.chars j ≠ 0

instance (s : NulString) (i : Nat) : Decidable (s.Reaches i) := inferInstanceAs (Decidable (∀ j ≤ i, s.chars j ≠ 0))

/-- The first `n` bytes are the characters of the string and then zeros. -/
structure StrncpyContract (dst : Nat → Byte) (src : NulString) (n : Nat) : Prop where
  copied : ∀ i < n, src.Reaches i → strncpy dst src n i = src.chars i
  padded : ∀ i < n, ¬ src.Reaches i → strncpy dst src n i = 0

/-! ## Where the comparison stops -/

/-- The comparison is decided at `i`. -/
def Decided (s1 s2 : NulString) (i : Nat) : Prop := s1.chars i ≠ s2.chars i ∨ s1.chars i = 0

theorem same_of_undecided {s1 s2 : NulString} {i : Nat} (undecided : ¬ Decided s1 s2 i) :
    s1.chars i = s2.chars i ∧ s1.chars i ≠ 0 :=
  ⟨not_not.mp fun differ => undecided (.inl differ), fun zero => undecided (.inr zero)⟩

theorem strncmpLoop_undecided {s1 s2 : NulString} {i : Nat} (undecided : ¬ Decided s1 s2 i) (left : Nat) (reads : List Nat) :
    strncmpLoop s1 s2 (left + 1) i reads = strncmpLoop s1 s2 left (i + 1) (reads ++ [i, i, i, i]) := by
  obtain ⟨same, nonzero⟩ := same_of_undecided undecided
  rw [strncmpLoop, if_neg nonzero, if_neg (same ▸ nonzero), if_pos same]

/-- The loop returns the difference where the comparison is decided, and reads nothing beyond. -/
theorem strncmpLoop_decided {s1 s2 : NulString} {left i d : Nat} (start : i ≤ d) (inside : d < i + left)
    (decided : Decided s1 s2 d) (before : ∀ j < d, ¬ Decided s1 s2 j) {reads : List Nat} (bounded : ∀ k ∈ reads, k ≤ d) :
    (strncmpLoop s1 s2 left i reads).result = charDifference s1 s2 d ∧
      ∀ k ∈ (strncmpLoop s1 s2 left i reads).reads, k ≤ d := by
  induction left generalizing i reads with
  | zero => exact absurd inside (Nat.not_lt.mpr start)
  | succ left ih =>
      rcases Nat.lt_or_eq_of_le start with earlier | rfl
      · rw [strncmpLoop_undecided (before i earlier)]
        refine ih earlier (by omega) fun k member => ?_
        rcases List.mem_append.mp member with old | new
        · exact bounded k old
        · simp only [List.mem_cons, List.not_mem_nil, or_false, or_self] at new
          omega
      · have here : ∀ {more : List Nat}, (∀ k ∈ more, k = i) → ∀ k ∈ reads ++ more, k ≤ i := by
          intro more own k member
          rcases List.mem_append.mp member with old | new
          · exact bounded k old
          · exact Nat.le_of_eq (own k new)
        rw [strncmpLoop]
        split
        · exact ⟨rfl, by rw [List.append_assoc]; exact here (by simp)⟩
        split
        · exact ⟨rfl, by rw [List.append_assoc]; exact here (by simp)⟩
        split
        · next nonzero _ same => exact absurd decided (by rintro (differ | zero); exacts [differ same, nonzero zero])
        · exact ⟨rfl, by rw [List.append_assoc]; exact here (by simp)⟩

/-- Where nothing is decided among the first `n` characters, the loop reads the next one. -/
theorem strncmpLoop_open {s1 s2 : NulString} {left i : Nat} (before : ∀ j < i + left, ¬ Decided s1 s2 j)
    (reads : List Nat) : i + left ∈ (strncmpLoop s1 s2 left i reads).reads := by
  induction left generalizing i reads with
  | zero => simp [strncmpLoop]
  | succ left ih =>
      rw [strncmpLoop_undecided (before i (by omega)), Nat.add_comm left, ← Nat.add_assoc]
      exact ih (fun j below => before j (by omega)) _

/-- The first position that decides the comparison. -/
theorem first_decided {s1 s2 : NulString} {i : Nat} (decided : Decided s1 s2 i) :
    ∃ d ≤ i, Decided s1 s2 d ∧ ∀ j < d, ¬ Decided s1 s2 j := by
  classical
  have some : ∃ d, Decided s1 s2 d := ⟨i, decided⟩
  exact ⟨Nat.find some, Nat.find_min' some decided, Nat.find_spec some, fun j below => Nat.find_min some below⟩

theorem charDifference_eq_zero_iff {s1 s2 : NulString} {i : Nat} :
    charDifference s1 s2 i = 0 ↔ s1.chars i = s2.chars i := by
  unfold charDifference
  constructor
  · intro zero
    exact BitVec.eq_of_toNat_eq (by omega)
  · intro same
    rw [same, Int.sub_self]

/-- `strncmp` meets its contract exactly where the first `n` characters decide the comparison. -/
theorem strncmp_contract_iff (s1 s2 : NulString) (n : Nat) :
    StrncmpContract s1 s2 n ↔ ∃ i < n, Decided s1 s2 i := by
  constructor
  · intro contract
    by_contra none
    have before : ∀ j < 0 + n, ¬ Decided s1 s2 j := fun j below decided => none ⟨j, by omega, decided⟩
    have beyond := contract.reads _ (strncmpLoop_open before [])
    omega
  · rintro ⟨i, inside, decided⟩
    obtain ⟨d, within, decided, before⟩ := first_decided decided
    have none : ∀ k ∈ ([] : List Nat), k ≤ d := nofun
    have inside : d < 0 + n := by omega
    obtain ⟨result, reads⟩ := strncmpLoop_decided (Nat.zero_le d) inside decided before none
    have returned : (strncmp s1 s2 n).result = charDifference s1 s2 d := result
    have same := fun j below => same_of_undecided (before j below)
    refine ⟨?_, fun k below first => ?_, fun k read => Nat.lt_of_le_of_lt (reads k read) (by omega)⟩
    · rw [returned, charDifference_eq_zero_iff]
      refine ⟨fun equal => ?_, fun agree => ?_⟩
      · -- An equal pair that decides is a common terminator.
        have zero : s1.chars d = 0 := decided.resolve_left (not_not.mpr equal)
        intro k _ reached
        rcases Nat.lt_trichotomy k d with earlier | rfl | later
        · exact (same k earlier).1
        · exact equal
        · exact absurd zero (reached d later)
      · exact agree d (by omega) fun j earlier => (same j earlier).2
    · have here : k = d := by
        rcases Nat.lt_trichotomy k d with earlier | rfl | later
        · exact absurd (same k earlier).1 first.differ
        · rfl
        · obtain ⟨equal, nonzero⟩ := first.before d later
          rcases decided with differ | zero
          · exact absurd equal differ
          · exact absurd zero nonzero
      rw [here, returned]

/-! ## Copying -/

theorem strncpyCopy_eq (src : NulString) (left i : Nat) (dst : Nat → Byte) :
    ∃ k ≤ left, (strncpyCopy src left i dst).1 = i + k ∧ (∀ j < k, src.chars (i + j) ≠ 0) ∧
      (k < left → src.chars (i + k) = 0) ∧
      ∀ j, (strncpyCopy src left i dst).2 j = if i ≤ j ∧ j < i + k then src.chars j else dst j := by
  induction left generalizing i dst with
  | zero => exact ⟨0, Nat.le_refl 0, rfl, nofun, nofun, fun j => (if_neg (by omega)).symm⟩
  | succ left ih =>
      unfold strncpyCopy
      split
      · next zero => exact ⟨0, Nat.zero_le _, rfl, nofun, fun _ => zero, fun j => (if_neg (by omega)).symm⟩
      · next nonzero =>
          obtain ⟨k, within, index, nonzeros, stops, copied⟩ := ih (i + 1) (setAt dst i (src.chars i))
          refine ⟨k + 1, by omega, by omega, fun j below => ?_, fun shorter => ?_, fun j => ?_⟩
          · cases j with
            | zero => exact nonzero
            | succ j => exact (by omega : i + 1 + j = i + (j + 1)) ▸ nonzeros j (by omega)
          · exact (by omega : i + 1 + k = i + (k + 1)) ▸ stops (by omega)
          · rw [copied, setAt_apply]
            by_cases here : j = i
            · subst here
              rw [if_neg (by omega), if_pos rfl, if_pos (by omega)]
            · rw [if_neg here]
              exact if_congr (by omega) rfl rfl

theorem strncpyPad_eq (left i : Nat) (dst : Nat → Byte) :
    (strncpyPad left i dst).1 = i + left ∧
      ∀ j, (strncpyPad left i dst).2 j = if i ≤ j ∧ j < i + left then 0 else dst j := by
  induction left generalizing i dst with
  | zero => exact ⟨rfl, fun j => (if_neg (by omega)).symm⟩
  | succ left ih =>
      obtain ⟨index, padded⟩ := ih (i + 1) (setAt dst i 0)
      unfold strncpyPad
      refine ⟨by omega, fun j => ?_⟩
      rw [padded, setAt_apply]
      by_cases here : j = i
      · subst here
        rw [if_neg (by omega), if_pos rfl, if_pos (by omega)]
      · rw [if_neg here]
        exact if_congr (by omega) rfl rfl

/-- The destination after `strncpy`: the last of the `n` bytes is always zero. -/
theorem strncpy_eq (dst : Nat → Byte) (src : NulString) (n : Nat) (i : Nat) (inside : i < n) :
    strncpy dst src n i = if src.Reaches i ∧ i + 1 ≠ n then src.chars i else 0 := by
  obtain ⟨k, within, index, nonzeros, stops, copied⟩ := strncpyCopy_eq src n 0 dst
  obtain ⟨last, padded⟩ := strncpyPad_eq (n - k) k (strncpyCopy src n 0 dst).2
  have reaches : src.Reaches i ↔ i < k := by
    constructor
    · intro reached
      by_contra beyond
      exact reached k (by omega) (by simpa using stops (by omega))
    · intro below j earlier
      simpa using nonzeros j (by omega)
  unfold strncpy
  dsimp only
  rw [index, Nat.zero_add, if_pos (Nat.zero_lt_of_lt inside), last, setAt_apply, padded, copied]
  simp only [reaches]
  by_cases final : i + 1 = n
  · rw [if_pos (by omega), if_neg fun both => both.2 final]
  · rw [if_neg (by omega)]
    by_cases below : i < k
    · rw [if_neg (by omega), if_pos (by omega), if_pos ⟨below, final⟩]
    · rw [if_pos (by omega), if_neg fun both => below both.1]

/-- `strncpy` meets its contract exactly where the terminator is copied too, or nothing is. -/
theorem strncpy_contract_iff (dst : Nat → Byte) (src : NulString) (n : Nat) :
    StrncpyContract dst src n ↔ n = 0 ∨ ∃ i < n, src.chars i = 0 := by
  constructor
  · intro contract
    by_contra none
    obtain ⟨positive, nonzero⟩ := not_or.mp none
    have last : n - 1 < n := by omega
    have reaches : src.Reaches (n - 1) := fun j within zero => nonzero ⟨j, by omega, zero⟩
    have kept := contract.copied (n - 1) last reaches
    rw [strncpy_eq dst src n (n - 1) last, if_neg fun both => both.2 (by omega)] at kept
    exact reaches (n - 1) (Nat.le_refl _) kept.symm
  · intro enough
    refine ⟨fun i inside reaches => ?_, fun i inside short => ?_⟩
    · have notLast : i + 1 ≠ n := by
        rintro rfl
        obtain ⟨j, below, zero⟩ := enough.resolve_left (Nat.succ_ne_zero i)
        exact reaches j (by omega) zero
      rw [strncpy_eq dst src n i inside, if_pos ⟨reaches, notLast⟩]
    · rw [strncpy_eq dst src n i inside, if_neg fun both => short both.1]

/-- Where the bounded functions meet the C contract. -/
theorem bounded_contracts_iff (s1 s2 src : NulString) (dst : Nat → Byte) (n m : Nat) :
    (StrncmpContract s1 s2 n ↔ ∃ i < n, s1.chars i ≠ s2.chars i ∨ s1.chars i = 0) ∧
      (StrncpyContract dst src m ↔ m = 0 ∨ ∃ i < m, src.chars i = 0) :=
  ⟨strncmp_contract_iff s1 s2 n, strncpy_contract_iff dst src m⟩

/-- A list of characters with a terminator after it. -/
def NulString.ofList (text : List Byte) : NulString := ⟨fun i => text.getD i 0, text.length, by simp⟩

/-- `strncmp("ab", "ac", 1)` returns -1 after reading the second characters, and `strncpy(dst, "ab", 2)` loses the `b`. -/
theorem bounded_contracts_broken :
    ¬ StrncmpContract (.ofList [97, 98]) (.ofList [97, 99]) 1 ∧ ¬ StrncpyContract (fun _ => 1) (.ofList [97, 98]) 2 := by
  constructor
  · intro contract
    have compared : strncmp (.ofList [97, 98]) (.ofList [97, 99]) 1 = ⟨-1, [0, 0, 0, 0, 1, 1]⟩ := rfl
    have inside := contract.reads 1
    rw [compared] at inside
    exact absurd (inside (by decide)) (by decide)
  · intro contract
    have kept := contract.copied 1 (by decide) (by decide)
    exact absurd kept (by decide)

end Sustemu.Runtime
