import Sustemu.Lib.Update
import Mathlib.Data.List.Basic
import Mathlib.Data.Nat.ModEq

/-!
# Queues and stacks in a circular array

The array is a function of an index below `size`. A queue is given by the index
of its oldest entry and its length, a stack by the index of its newest entry and
its length.
-/

set_option autoImplicit false

namespace Sustemu.Lib

variable {α : Type} {size : Nat} {a : Nat → α}

theorem ring_inj (start : Nat) {i j : Nat} (left : i < size) (right : j < size) (same : (start + i) % size = (start + j) % size) :
    i = j := by
  have close : i ≡ j [MOD size] := Nat.ModEq.add_left_cancel' start same
  rwa [Nat.ModEq, Nat.mod_eq_of_lt left, Nat.mod_eq_of_lt right] at close

/-! ## Queues -/

/-- The entries from index `start` on, oldest first. -/
def queued (size : Nat) (a : Nat → α) (start count : Nat) : List α :=
  (List.range count).map fun i => a ((start + i) % size)

@[simp] theorem length_queued (start count : Nat) : (queued size a start count).length = count := by
  simp [queued]

/-- An entry goes behind the newest one while there is room. -/
theorem queued_push {start count : Nat} (room : count < size) (x : α) :
    queued size (setAt a ((start + count) % size) x) start (count + 1) = queued size a start count ++ [x] := by
  unfold queued
  rw [List.range_succ, List.map_append, List.map_singleton, setAt_self]
  refine congrArg (· ++ [x]) (List.map_congr_left fun i member => ?_)
  have older : i < count := List.mem_range.mp member
  refine setAt_of_ne (fun same => ?_) x a
  exact absurd (ring_inj start (Nat.lt_trans older room) room same) (Nat.ne_of_lt older)

theorem queued_pop (start count : Nat) :
    queued size a start (count + 1) = a (start % size) :: queued size a ((start + 1) % size) count := by
  unfold queued
  rw [List.range_succ_eq_map, List.map_cons, List.map_map, Nat.add_zero]
  refine congrArg (a (start % size) :: ·) (List.map_congr_left fun i _ => ?_)
  simp [Nat.add_assoc, Nat.add_comm 1]

/-! ## Stacks -/

/-- The index below `top`. -/
def below (size top : Nat) : Nat := (top + size - 1) % size

/-- The `count` newest entries, newest first. -/
def stacked (size : Nat) (a : Nat → α) : Nat → Nat → List α
  | _, 0 => []
  | top, count + 1 => a top :: stacked size a (below size top) count

theorem stacked_succ (top count : Nat) :
    stacked size a top (count + 1) = a top :: stacked size a (below size top) count := rfl

@[simp] theorem length_stacked (top count : Nat) : (stacked size a top count).length = count := by
  induction count generalizing top with
  | zero => rfl
  | succ count ih => exact congrArg (· + 1) (ih _)

theorem stacked_take (top count few : Nat) :
    (stacked size a top count).take few = stacked size a top (min few count) := by
  induction count generalizing top few with
  | zero => simp [stacked]
  | succ count ih =>
      cases few with
      | zero => simp [stacked]
      | succ few =>
          rw [Nat.succ_min_succ]
          exact congrArg (a top :: ·) (ih _ _)

theorem below_lt (positive : 0 < size) (top : Nat) : below size top < size := Nat.mod_lt _ positive

theorem below_next {top : Nat} (inside : top < size) : below size ((top + 1) % size) = top := by
  unfold below
  by_cases last : top + 1 = size
  · rw [last, Nat.mod_self, Nat.zero_add, Nat.mod_eq_of_lt (by omega)]
    omega
  · rw [Nat.mod_eq_of_lt (by omega : top + 1 < size), show top + 1 + size - 1 = top + size by omega, Nat.add_mod_right,
      Nat.mod_eq_of_lt inside]

/-- The index of the entry `depth` places under the top. -/
def under (size : Nat) : Nat → Nat → Nat
  | top, 0 => top
  | top, depth + 1 => under size (below size top) depth

theorem under_under (top few more : Nat) : under size (under size top few) more = under size top (few + more) := by
  induction few generalizing top with
  | zero => rw [Nat.zero_add, under]
  | succ few ih =>
      rw [Nat.succ_add]
      exact ih _

theorem under_next {top : Nat} (inside : top < size) (depth : Nat) :
    under size ((top + 1) % size) (depth + 1) = under size top depth := by
  rw [under, below_next inside]

theorem under_eq {top : Nat} (inside : top < size) {depth : Nat} (shallow : depth ≤ size) :
    under size top depth = (top + (size - depth)) % size := by
  induction depth generalizing top with
  | zero =>
      rw [Nat.sub_zero, Nat.add_mod_right, Nat.mod_eq_of_lt inside]
      rfl
  | succ depth ih =>
      have positive : 0 < size := Nat.lt_of_le_of_lt (Nat.zero_le _) inside
      unfold under
      rw [ih (below_lt positive top) (Nat.le_of_succ_le shallow), below, Nat.mod_add_mod,
        show top + size - 1 + (size - depth) = top + (size - (depth + 1)) + size by omega, Nat.add_mod_right]

/-- Entries that are not among the newest `count` do not matter. -/
theorem stacked_congr {b : Nat → α} {top count : Nat} (same : ∀ depth, depth < count → b (under size top depth) = a (under size top depth)) :
    stacked size b top count = stacked size a top count := by
  induction count generalizing top with
  | zero => rfl
  | succ count ih =>
      unfold stacked
      rw [ih fun depth less => same (depth + 1) (Nat.succ_lt_succ less)]
      exact congrArg (· :: stacked size a (below size top) count) (same 0 (Nat.succ_pos count))

/-- While there is room, the next entry leaves alone what lies `few` places under the top. -/
theorem stacked_push_above {top few count : Nat} (inside : top < size) (room : few + count < size) (x : α) :
    stacked size (setAt a ((top + 1) % size) x) (under size top few) count = stacked size a (under size top few) count := by
  refine stacked_congr fun depth shallow => setAt_of_ne (fun same => ?_) x a
  have bound : few + depth + 1 < size := by omega
  rw [under_under, under_eq inside (by omega),
    show top + (size - (few + depth)) = top + 1 + (size - 1 - (few + depth)) by omega] at same
  have positive : 0 < size := Nat.lt_of_le_of_lt (Nat.zero_le _) inside
  have place := ring_inj (top + 1) (by omega : size - 1 - (few + depth) < size) positive same
  omega

/-- The next entry overwrites the oldest one of a full stack. -/
theorem stacked_push {top count : Nat} (inside : top < size) (fits : count ≤ size) (x : α) :
    stacked size (setAt a ((top + 1) % size) x) ((top + 1) % size) (min (count + 1) size) =
      (x :: stacked size a top count).take size := by
  obtain ⟨less, rfl⟩ : ∃ less, size = less + 1 := Nat.exists_eq_succ_of_ne_zero (Nat.ne_of_gt (Nat.lt_of_le_of_lt (Nat.zero_le _) inside))
  rw [List.take_succ_cons, stacked_take, Nat.succ_min_succ, Nat.min_comm, stacked_succ, setAt_self,
    below_next inside]
  refine congrArg (x :: ·) (stacked_congr fun depth shallow => setAt_of_ne (fun same => ?_) x a)
  have bound : depth < less := Nat.lt_of_lt_of_le shallow (Nat.min_le_left _ _)
  rw [under_eq inside (by omega), show top + (less + 1 - depth) = top + 1 + (less - depth) by omega] at same
  have place := ring_inj (top + 1) (by omega : less - depth < less + 1) (Nat.succ_pos less) same
  omega

end Sustemu.Lib
