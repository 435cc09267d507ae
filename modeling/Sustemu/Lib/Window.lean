import Sustemu.Lib.Update
import Mathlib.Data.Fin.Basic
import Mathlib.Data.List.Nodup
import Mathlib.Data.Fintype.Card
import Mathlib.Algebra.Group.Fin.Basic
import Mathlib.Tactic.Abel

/-!
# Circular windows

A circular buffer of capacity `n` keeps its live slots in the window of
`count` consecutive indices that starts at `head` and wraps at `n`. The
window is a list of slot indices, oldest first, so pushing at the tail appends
to it and popping at the head removes its first element.
-/

set_option autoImplicit false

namespace Sustemu.Lib

/-- The `count` consecutive slots starting at `head`, oldest first. -/
def window {n : Nat} [NeZero n] (head : Fin n) : Nat → List (Fin n)
  | 0 => []
  | count + 1 => head :: window (head + 1) count

/-- Distance of a slot from the head of its buffer. -/
def age {n : Nat} [NeZero n] (head slot : Fin n) : Nat := (slot - head).val

section Window

variable {n : Nat} [NeZero n]

@[simp] theorem window_zero (head : Fin n) : window head 0 = [] := rfl

theorem window_succ (head : Fin n) (count : Nat) :
    window head (count + 1) = head :: window (head + 1) count := rfl

@[simp] theorem length_window (head : Fin n) (count : Nat) : (window head count).length = count := by
  induction count generalizing head with
  | zero => rfl
  | succ count ih => rw [window_succ, List.length_cons, ih]

theorem succ_add_ofNat (head : Fin n) (count : Nat) :
    head + 1 + Fin.ofNat n count = head + Fin.ofNat n (count + 1) := by
  rw [add_assoc]
  congr 1
  apply Fin.ext
  simp [Fin.val_add, Fin.ofNat, Nat.add_comm]

theorem add_ofNat_succ (head : Fin n) (count : Nat) :
    head + Fin.ofNat n count + 1 = head + Fin.ofNat n (count + 1) := by
  rw [← succ_add_ofNat]
  abel

theorem window_succ_last (head : Fin n) (count : Nat) :
    window head (count + 1) = window head count ++ [head + Fin.ofNat n count] := by
  induction count generalizing head with
  | zero =>
      rw [window_succ, window_zero, window_zero]
      simp
  | succ count ih =>
      rw [window_succ, ih (head + 1), window_succ head count, succ_add_ofNat]
      rfl

theorem getElem?_window (head : Fin n) (count position : Nat) (inside : position < count) :
    (window head count)[position]? = some (head + Fin.ofNat n position) := by
  induction count with
  | zero => omega
  | succ count ih =>
      rw [window_succ_last]
      by_cases last : position = count
      · subst last
        rw [List.getElem?_append_right (by simp)]
        simp
      · rw [List.getElem?_append_left (by simp; omega)]
        exact ih (by omega)

theorem age_lt (head slot : Fin n) : age head slot < n := (slot - head).isLt

@[simp] theorem age_self (head : Fin n) : age head head = 0 := by
  simp [age]

theorem age_injective {head left right : Fin n} (same : age head left = age head right) :
    left = right := by
  have difference : left - head = right - head := Fin.ext same
  exact sub_left_injective difference

theorem add_age (head slot : Fin n) : head + Fin.ofNat n (age head slot) = slot := by
  have offset : Fin.ofNat n (age head slot) = slot - head := by
    apply Fin.ext
    exact Nat.mod_eq_of_lt (age_lt head slot)
  rw [offset]
  abel

theorem age_add (head : Fin n) {position : Nat} (inside : position < n) :
    age head (head + Fin.ofNat n position) = position := by
  have offset : head + Fin.ofNat n position - head = Fin.ofNat n position := by abel
  rw [age, offset]
  exact Nat.mod_eq_of_lt inside

/-- Moving the head past a slot's predecessor brings the slot one step closer. -/
theorem age_succ_head {head slot : Fin n} (other : slot ≠ head) :
    age head slot = age (head + 1) slot + 1 := by
  have split : slot - (head + 1) = slot - head - 1 := by abel
  have nonzero : slot - head ≠ 0 := sub_ne_zero.mpr other
  have value : (slot - head - 1).val = (slot - head).val - 1 :=
    Fin.val_sub_one_of_ne_zero nonzero
  have positive : (slot - head).val ≠ 0 := fun zero => nonzero (Fin.ext (by simpa using zero))
  unfold age
  rw [split, value]
  omega

theorem mem_window_iff {head slot : Fin n} {count : Nat} (bounded : count ≤ n) :
    slot ∈ window head count ↔ age head slot < count := by
  induction count generalizing head with
  | zero => simp
  | succ count ih =>
      rw [window_succ, List.mem_cons, ih (by omega)]
      by_cases first : slot = head
      · subst first
        simp
      · have closer := age_succ_head first
        simp only [first, false_or]
        omega

theorem nodup_window (head : Fin n) {count : Nat} (bounded : count ≤ n) :
    (window head count).Nodup := by
  induction count with
  | zero => exact List.nodup_nil
  | succ count ih =>
      rw [window_succ_last]
      apply List.Nodup.append (ih (by omega)) (List.nodup_singleton _)
      intro slot member last
      rw [List.mem_singleton] at last
      subst last
      rw [mem_window_iff (by omega), age_add head (by omega)] at member
      omega

theorem head_not_mem_window_tail (head : Fin n) {count : Nat} (bounded : count + 1 ≤ n) :
    head ∉ window (head + 1) count := by
  have unique := nodup_window head bounded
  rw [window_succ] at unique
  exact (List.nodup_cons.mp unique).1

theorem last_not_mem_window (head : Fin n) {count : Nat} (bounded : count + 1 ≤ n) :
    head + Fin.ofNat n count ∉ window head count := by
  rw [mem_window_iff (by omega), age_add head (by omega)]
  omega

/-- A live slot splits its window into the older and the newer slots. -/
theorem window_split {head slot : Fin n} {count : Nat} (inside : age head slot < count) :
    window head count = window head (age head slot) ++ slot :: window (slot + 1) (count - age head slot - 1) := by
  induction count generalizing head with
  | zero => omega
  | succ count ih =>
      by_cases first : slot = head
      · subst first
        rw [age_self]
        rfl
      · have closer := age_succ_head first
        rw [window_succ, ih (by omega), closer, window_succ]
        simp

end Window

/-! ## Contents of a window -/

section Contents

variable {n : Nat} {α : Type}

/-- Overwriting a slot outside the window leaves its contents alone. -/
theorem map_update_window_of_not_mem (contents : Fin n → α) (slots : List (Fin n)) (slot : Fin n)
    (value : α) (outside : slot ∉ slots) :
    slots.map (setAt contents slot value) = slots.map contents := by
  apply List.map_congr_left
  intro other member
  rw [setAt_of_ne]
  rintro rfl
  exact outside member

end Contents

/-! ## Choosing the oldest -/

section Choice

variable {α : Type} (eligible : α → Bool) (key : α → Nat)

/-- Keep the better of the best candidate so far and the next one; ties go to the earlier. -/
def better (best : Option α) (next : α) : Option α :=
  if eligible next then
    match best with
    | none => some next
    | some best => if key next < key best then some next else some best
  else best

/-- A scan for the eligible candidate of least key. -/
theorem foldl_better (candidates : List α) (best : Option α) (start : ∀ b, best = some b → eligible b = true) :
    (∀ chosen, candidates.foldl (better eligible key) best = some chosen → eligible chosen = true ∧
      (∀ b, best = some b → key chosen ≤ key b) ∧
      ∀ other ∈ candidates, eligible other = true → key chosen ≤ key other) ∧
    (candidates.foldl (better eligible key) best = none → best = none ∧ ∀ other ∈ candidates, eligible other = false) := by
  induction candidates generalizing best with
  | nil =>
      refine ⟨fun chosen same => ⟨start chosen same, ?_, fun _ absurdity => nomatch absurdity⟩,
        fun same => ⟨same, fun _ absurdity => nomatch absurdity⟩⟩
      intro b sameB
      have equal : chosen = b := Option.some.inj (same.symm.trans sameB)
      rw [equal]
  | cons next rest ih =>
      have step : (∀ b, better eligible key best next = some b → eligible b = true) ∧
          (∀ b c, better eligible key best next = some b → best = some c → key b ≤ key c) ∧
          (∀ b, better eligible key best next = some b → eligible next = true → key b ≤ key next) ∧
          (better eligible key best next = none → best = none ∧ eligible next = false) := by
        unfold better
        cases allowed : eligible next with
        | false =>
            simp only [Bool.false_eq_true, ↓reduceIte]
            refine ⟨start, ?_, nofun, fun none => ⟨none, trivial⟩⟩
            rintro b c rfl ⟨⟩
            exact Nat.le_refl _
        | true =>
            cases best with
            | none => simp [allowed]
            | some c =>
                have startC := start c rfl
                by_cases smaller : key next < key c
                · simp only [↓reduceIte, smaller]
                  refine ⟨?_, ?_, ?_, nofun⟩
                  · rintro b ⟨⟩
                    exact allowed
                  · rintro b d ⟨⟩ ⟨⟩
                    omega
                  · rintro b ⟨⟩ _
                    omega
                · simp only [↓reduceIte, smaller]
                  refine ⟨?_, ?_, ?_, nofun⟩
                  · rintro b ⟨⟩
                    exact startC
                  · rintro b d ⟨⟩ ⟨⟩
                    omega
                  · rintro b ⟨⟩ _
                    omega
      obtain ⟨valid, improves, covers, empty⟩ := step
      obtain ⟨found, missing⟩ := ih _ valid
      rw [List.foldl_cons]
      constructor
      · intro chosen result
        obtain ⟨ok, least, rest⟩ := found chosen result
        refine ⟨ok, ?_, ?_⟩
        · intro b same
          cases after : better eligible key best next with
          | none => rw [(empty after).1] at same; cases same
          | some c => exact (least c after).trans (improves c b after same)
        · intro other member allowed
          rcases List.mem_cons.mp member with rfl | later
          · cases after : better eligible key best other with
            | none => rw [(empty after).2] at allowed; cases allowed
            | some c => exact (least c after).trans (covers c after allowed)
          · exact rest other later allowed
      · intro result
        obtain ⟨none, others⟩ := missing result
        refine ⟨(empty none).1, ?_⟩
        intro other member
        rcases List.mem_cons.mp member with rfl | later
        · exact (empty none).2
        · exact others other later

end Choice

end Sustemu.Lib
