import Mathlib.Data.List.Induction

/-!
# Recency by a clock

A log of events, some of which tick a clock and some of which use a key. When
every use ticks, the clock value at the last use of a key orders the keys as the
number of events since their last use does.
-/

set_option autoImplicit false

namespace Sustemu.Lib

variable {E κ : Type} (uses : κ → E → Bool) (ticks : E → Bool)

/-- The number of events since the last use, and the length of the log where there is none. -/
def sinceUse (log : List E) (key : κ) : Nat := log.reverse.findIdx (uses key)

/-- The clock at the last use, and 0 where there is none. -/
def stamp (log : List E) (key : κ) : Nat := (log.reverse.dropWhile fun event => !uses key event).countP ticks

variable {uses ticks} {log : List E} {event : E}

theorem sinceUse_snoc (key : κ) :
    sinceUse uses (log ++ [event]) key = if uses key event = true then 0 else sinceUse uses log key + 1 := by
  unfold sinceUse
  rw [List.reverse_append, List.reverse_singleton, List.singleton_append, List.findIdx_cons]
  cases uses key event <;> rfl

theorem stamp_snoc (key : κ) : stamp uses ticks (log ++ [event]) key =
    if uses key event = true then (log ++ [event]).countP ticks else stamp uses ticks log key := by
  unfold stamp
  rw [List.reverse_append, List.reverse_singleton, List.singleton_append, List.dropWhile_cons]
  cases used : uses key event with
  | true =>
      have whole : (event :: log.reverse).Perm (log ++ [event]) :=
        ((List.reverse_perm log).cons event).trans (List.perm_append_singleton event log).symm
      exact whole.countP_eq _
  | false => rfl

variable (uses ticks log) in
theorem stamp_le (key : κ) : stamp uses ticks log key ≤ log.countP ticks := by
  have kept : stamp uses ticks log key ≤ log.reverse.countP ticks := (List.dropWhile_sublist _).countP_le
  rwa [(List.reverse_perm log).countP_eq] at kept

/-- An event that uses one key at most stamps no two keys alike. -/
theorem stamp_injective (tick : ∀ event ∈ log, ∀ key, uses key event = true → ticks event = true)
    (one : ∀ event ∈ log, ∀ left right, uses left event = true → uses right event = true → left = right)
    {left right : κ} (same : stamp uses ticks log left = stamp uses ticks log right)
    (used : 0 < stamp uses ticks log right) : left = right := by
  induction log using List.reverseRecOn with
  | nil => exact absurd used (Nat.lt_irrefl 0)
  | append_singleton log event ih =>
      have last : event ∈ log ++ [event] := List.mem_append_right _ List.mem_cons_self
      have newer : ∀ key, uses key event = true → ∀ other, stamp uses ticks log other < (log ++ [event]).countP ticks := by
        intro key hit other
        have bound := stamp_le uses ticks log other
        rw [List.countP_append, List.countP_singleton, if_pos (tick event last key hit)]
        omega
      rw [stamp_snoc, stamp_snoc] at same
      rw [stamp_snoc] at used
      cases usesLeft : uses left event with
      | true =>
          rw [usesLeft, if_pos rfl] at same
          cases usesRight : uses right event with
          | true => exact one event last left right usesLeft usesRight
          | false =>
              rw [usesRight, if_neg Bool.false_ne_true] at same
              exact absurd same.symm (Nat.ne_of_lt (newer left usesLeft right))
      | false =>
          rw [usesLeft, if_neg Bool.false_ne_true] at same
          cases usesRight : uses right event with
          | true =>
              rw [usesRight, if_pos rfl] at same
              exact absurd same (Nat.ne_of_lt (newer right usesRight left))
          | false =>
              rw [usesRight, if_neg Bool.false_ne_true] at same used
              exact ih (fun event member => tick event (List.mem_append_left _ member))
                (fun event member => one event (List.mem_append_left _ member)) same used

/-- The older stamp is the greater age. -/
theorem stamp_lt_iff (tick : ∀ event ∈ log, ∀ key, uses key event = true → ticks event = true)
    (left right : κ) : stamp uses ticks log left < stamp uses ticks log right ↔ sinceUse uses log right < sinceUse uses log left := by
  induction log using List.reverseRecOn with
  | nil => exact iff_of_false (Nat.lt_irrefl _) (Nat.lt_irrefl _)
  | append_singleton log event ih =>
      have earlier := ih fun event member => tick event (List.mem_append_left _ member)
      have last : event ∈ log ++ [event] := List.mem_append_right _ List.mem_cons_self
      have advance : ∀ key, uses key event = true → (log ++ [event]).countP ticks = log.countP ticks + 1 := by
        intro key used
        rw [List.countP_append, List.countP_singleton, if_pos (tick event last key used)]
      have leftBound := stamp_le uses ticks log left
      have rightBound := stamp_le uses ticks log right
      rw [stamp_snoc, stamp_snoc, sinceUse_snoc, sinceUse_snoc]
      cases usesLeft : uses left event with
      | true =>
          -- the key used last is the newest of all
          rw [if_pos rfl, if_pos rfl, advance left usesLeft]
          refine iff_of_false ?_ (Nat.not_lt_zero _)
          split
          · exact Nat.lt_irrefl _
          · omega
      | false =>
          rw [if_neg Bool.false_ne_true, if_neg Bool.false_ne_true]
          cases usesRight : uses right event with
          | true =>
              rw [if_pos rfl, if_pos rfl, advance right usesRight]
              exact iff_of_true (by omega) (Nat.succ_pos _)
          | false =>
              rw [if_neg Bool.false_ne_true, if_neg Bool.false_ne_true, Nat.add_lt_add_iff_right]
              exact earlier

end Sustemu.Lib
