import Mathlib.Data.List.Count
import Mathlib.Data.List.Range
import Mathlib.Order.WellFounded

/-!
# Potentials

A sequence of states with two numbers attached to each: the work done so far
and a bounded measure of what is left to do before more work is done. A step
that does no work never raises the measure, and lowers it unless the step is
idle. Then the steps that are not idle pay for the work, and the work stops
only if from some point on every step is idle.
-/

set_option autoImplicit false

namespace Sustemu.Lib

section Potential

variable {work left : Nat → Nat} {idle : Nat → Prop} {most : Nat}

/-- The first `k` steps of a sequence are paid for by a measure. -/
structure Paid (work left : Nat → Nat) (idle : Nat → Prop) (most k : Nat) : Prop where
  bounded : ∀ i, i ≤ k → left i ≤ most
  grows : ∀ i, i < k → work i ≤ work (i + 1)
  rests : ∀ i, i < k → work (i + 1) = work i → left (i + 1) ≤ left i
  pays : ∀ i, i < k → work (i + 1) = work i → ¬idle i → left (i + 1) < left i

/-- How many of the first `k` steps are not idle. -/
def busySteps (idle : Nat → Prop) [DecidablePred idle] (k : Nat) : Nat :=
  (List.range k).countP fun i => decide (¬idle i)

@[simp] theorem busySteps_zero [DecidablePred idle] : busySteps idle 0 = 0 := rfl

theorem busySteps_succ [DecidablePred idle] (k : Nat) :
    busySteps idle (k + 1) = busySteps idle k + if idle k then 0 else 1 := by
  unfold busySteps
  rw [List.range_succ, List.countP_append, List.countP_singleton]
  by_cases rest : idle k <;> simp [rest]

theorem busySteps_congr {idle' : Nat → Prop} [DecidablePred idle] [DecidablePred idle'] (same : ∀ i, idle i ↔ idle' i)
    (k : Nat) : busySteps idle k = busySteps idle' k := by
  unfold busySteps
  exact List.countP_congr fun i _ => by simp [same i]

theorem busySteps_of_never [DecidablePred idle] {k : Nat} (never : ∀ i, i < k → ¬idle i) : busySteps idle k = k := by
  induction k with
  | zero => rfl
  | succ k ih =>
      rw [busySteps_succ, if_neg (never k (Nat.lt_succ_self k)), ih fun i before => never i (Nat.lt_succ_of_lt before)]

namespace Paid

theorem of_le {k m : Nat} (paid : Paid work left idle most k) (shorter : m ≤ k) : Paid work left idle most m where
  bounded := fun i inside => paid.bounded i (inside.trans shorter)
  grows := fun i inside => paid.grows i (Nat.lt_of_lt_of_le inside shorter)
  rests := fun i inside => paid.rests i (Nat.lt_of_lt_of_le inside shorter)
  pays := fun i inside => paid.pays i (Nat.lt_of_lt_of_le inside shorter)

theorem work_le {k : Nat} (paid : Paid work left idle most k) : work 0 ≤ work k := by
  induction k with
  | zero => exact Nat.le_refl _
  | succ k ih => exact (ih (paid.of_le (Nat.le_succ k))).trans (paid.grows k (Nat.lt_succ_self k))

/-- The measure is an account: each unit of work fills it, each step that is not idle takes from it. -/
theorem balance [DecidablePred idle] {k : Nat} (paid : Paid work left idle most k) :
    busySteps idle k + left k ≤ most + (most + 1) * (work k - work 0) := by
  induction k with
  | zero =>
      have full := paid.bounded 0 (Nat.le_refl 0)
      rw [busySteps_zero, Nat.sub_self, Nat.mul_zero]
      omega
  | succ k ih =>
      have before := ih (paid.of_le (Nat.le_succ k))
      have start := (paid.of_le (Nat.le_succ k)).work_le
      rw [busySteps_succ]
      by_cases same : work (k + 1) = work k
      · have rests := paid.rests k (Nat.lt_succ_self k) same
        have pays := paid.pays k (Nat.lt_succ_self k) same
        rw [same]
        split
        · omega
        · next busy =>
            have lower := pays busy
            omega
      · -- One more unit of work fills the account again.
        have grows := paid.grows k (Nat.lt_succ_self k)
        have full := paid.bounded (k + 1) (Nat.le_refl _)
        have more : work k - work 0 + 1 ≤ work (k + 1) - work 0 := by omega
        have filled : (most + 1) * (work k - work 0) + (most + 1) ≤ (most + 1) * (work (k + 1) - work 0) :=
          Nat.mul_le_mul_left (most + 1) more
        split <;> omega

/-- Steps that are not idle do work at a steady rate. -/
theorem busy_le [DecidablePred idle] {k : Nat} (paid : Paid work left idle most k) :
    busySteps idle k ≤ most + (most + 1) * (work k - work 0) :=
  (Nat.le_add_right _ _).trans paid.balance

/-- A sequence that never rests gets any amount of work done. -/
theorem reaches (paid : ∀ k, Paid work left idle most k) (never : ∀ i, ¬idle i) (amount : Nat) {k : Nat}
    (long : most + (most + 1) * amount < k) : work 0 + amount < work k := by
  classical
  have busy := (paid k).busy_le
  rw [busySteps_of_never fun i _ => never i] at busy
  have less := Nat.lt_of_mul_lt_mul_left (Nat.lt_of_add_lt_add_left (Nat.lt_of_lt_of_le long busy))
  omega

/-- Work stops exactly if all steps are idle from some point on. -/
theorem stops_iff (paid : ∀ k, Paid work left idle most k) (still : ∀ i, idle i → work (i + 1) = work i) :
    (∃ n, ∀ m, n ≤ m → work m = work n) ↔ ∃ n, ∀ m, n ≤ m → idle m := by
  constructor
  · rintro ⟨n, stopped⟩
    have same : ∀ m, n ≤ m → work (m + 1) = work m := fun m after =>
      (stopped (m + 1) (Nat.le_succ_of_le after)).trans (stopped m after).symm
    have falls : ∀ d m, n ≤ m → left (m + d) ≤ left m := by
      intro d m after
      induction d with
      | zero => exact Nat.le_refl _
      | succ d ih =>
          have step := (paid (m + d + 1)).rests (m + d) (Nat.lt_succ_self _) (same _ (Nat.le_add_right_of_le after))
          exact step.trans ih
    -- From where the measure is least, no step can lower it.
    obtain ⟨⟨least, after⟩, lowest⟩ := WellFounded.has_min (measure fun m : { m // n ≤ m } => left m.1).wf Set.univ
      ⟨⟨n, Nat.le_refl n⟩, trivial⟩
    refine ⟨least, fun m later => ?_⟩
    by_contra busy
    have low := falls (m - least) least after
    rw [Nat.add_sub_cancel' later] at low
    have lower := (paid (m + 1)).pays m (Nat.lt_succ_self m) (same m (after.trans later)) busy
    exact lowest.2 ⟨m + 1, Nat.le_succ_of_le (after.trans later)⟩ trivial (Nat.lt_of_lt_of_le lower low)
  · rintro ⟨n, rests⟩
    refine ⟨n, fun m later => ?_⟩
    induction m, later using Nat.le_induction with
    | base => rfl
    | succ m later ih => exact (still m (rests m later)).trans ih

end Paid

end Potential

end Sustemu.Lib
