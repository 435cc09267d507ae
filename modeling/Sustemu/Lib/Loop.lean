import Mathlib.Logic.Relation
import Mathlib.Order.WellFounded

/-!
# While loops

A loop around a step that can fail, and loops that end once a counter reaches
its budget.
-/

set_option autoImplicit false

namespace Sustemu.Lib

open Relation

variable {S : Type} {step : S → Option S} {goes : S → Bool} {s a b : S}

/-- `while (goes s) s = step(s);`, given up after `fuel` tests. -/
def whileLoop (step : S → Option S) (goes : S → Bool) : Nat → S → Option S
  | 0, _ => none
  | fuel + 1, s => if goes s then (step s).bind (whileLoop step goes fuel) else some s

/-- One round: the test passes and the body runs. -/
def Round (step : S → Option S) (goes : S → Bool) (s s' : S) : Prop := goes s = true ∧ step s = some s'

/-- A loop returns the states that rounds lead to and that fail the test. -/
theorem whileLoop_iff :
    (∃ fuel, whileLoop step goes fuel s = some a) ↔ ReflTransGen (Round step goes) s a ∧ goes a = false := by
  constructor
  · rintro ⟨fuel, returns⟩
    induction fuel generalizing s with
    | zero => cases returns
    | succ fuel ih =>
        unfold whileLoop at returns
        split at returns
        · next going =>
            obtain ⟨mid, stepped, rest⟩ := Option.bind_eq_some_iff.mp returns
            obtain ⟨rounds, stops⟩ := ih rest
            exact ⟨.head ⟨going, stepped⟩ rounds, stops⟩
        · next stops =>
            cases returns
            exact ⟨.refl, Bool.eq_false_iff.mpr stops⟩
  · rintro ⟨rounds, stops⟩
    induction rounds using ReflTransGen.head_induction_on with
    | refl => exact ⟨1, by rw [whileLoop, stops]; rfl⟩
    | head round _ ih =>
        obtain ⟨fuel, returns⟩ := ih
        refine ⟨fuel + 1, ?_⟩
        rw [whileLoop, if_pos round.1, round.2]
        exact returns

/-- What a loop returns does not depend on the bound. -/
theorem whileLoop_unique {fuel fuel' : Nat} (first : whileLoop step goes fuel s = some a)
    (second : whileLoop step goes fuel' s = some b) : a = b := by
  obtain ⟨toA, stopsA⟩ := whileLoop_iff.mp ⟨fuel, first⟩
  obtain ⟨toB, stopsB⟩ := whileLoop_iff.mp ⟨fuel', second⟩
  have deterministic : Relator.RightUnique (Round step goes) :=
    fun _ _ _ x y => Option.some.inj (x.2.symm.trans y.2)
  have stuck : ∀ {x y}, goes x = false → ReflTransGen (Round step goes) x y → x = y := by
    intro x y stops rounds
    rcases rounds.cases_head with same | ⟨_, round, _⟩
    · exact same
    · exact absurd round.1 (by rw [stops]; exact Bool.false_ne_true)
  rcases ReflTransGen.total_of_right_unique deterministic toA toB with onward | onward
  · exact stuck stopsA onward
  · exact (stuck stopsB onward).symm

/-- A loop whose rounds all descend returns. -/
theorem whileLoop_returns {r : S → S → Prop} (wf : WellFounded r)
    (descends : ∀ a, ReflTransGen (Round step goes) s a → goes a = true → ∃ b, step a = some b ∧ r b a) :
    ∃ fuel a, whileLoop step goes fuel s = some a := by
  have from_here : ∀ a, ReflTransGen (Round step goes) s a → ∃ fuel b, whileLoop step goes fuel a = some b := by
    intro a
    induction a using wf.induction with
    | _ a ih =>
        intro rounds
        cases test : goes a with
        | false => exact ⟨1, a, by rw [whileLoop, test]; rfl⟩
        | true =>
            obtain ⟨b, stepped, less⟩ := descends a rounds test
            obtain ⟨fuel, c, returns⟩ := ih b less (rounds.tail ⟨test, stepped⟩)
            refine ⟨fuel + 1, c, ?_⟩
            rw [whileLoop, if_pos test, stepped]
            exact returns
  exact from_here s .refl

/-! ## Budgets -/

section Budget

variable {count : S → Nat} {running : S → Bool} {n : Nat}

/-- The test of a loop with a budget. -/
def within (count : S → Nat) (running : S → Bool) (n : Nat) (s : S) : Bool := decide (count s < n) && running s

/-- Until the budget is used up, nothing stops the loop and no step fails. -/
def Undisturbed (step : S → Option S) (count : S → Nat) (running : S → Bool) (n : Nat) (s : S) : Prop :=
  ∀ a, ReflTransGen (Round step (within count running n)) s a → count a < n →
    running a = true ∧ (step a).isSome = true

/-- The same as a test, for a loop that uses up its budget in fewer than `fuel` rounds. -/
def undisturbedFor (step : S → Option S) (count : S → Nat) (running : S → Bool) (n : Nat) : Nat → S → Bool
  | 0, _ => false
  | fuel + 1, s =>
      decide (n ≤ count s) || running s && (step s).any (undisturbedFor step count running n fuel)

theorem undisturbedFor_sound {fuel : Nat} (test : undisturbedFor step count running n fuel s = true) :
    Undisturbed step count running n s := by
  intro a rounds short
  induction fuel generalizing s with
  | zero => cases test
  | succ fuel ih =>
      unfold undisturbedFor at test
      rcases Bool.or_eq_true_iff.mp test with done | goes
      · rcases rounds.cases_head with same | ⟨_, ⟨going, _⟩, _⟩
        · rw [same] at done
          exact absurd (of_decide_eq_true done) (Nat.not_le.mpr short)
        · have less := of_decide_eq_true (Bool.and_eq_true_iff.mp going).1
          exact absurd (of_decide_eq_true done) (Nat.not_le.mpr less)
      · obtain ⟨run, rest⟩ := Bool.and_eq_true_iff.mp goes
        obtain ⟨next, stepped, later⟩ := (Option.any_eq_true _ _).mp rest
        rcases rounds.cases_head with same | ⟨mid, ⟨_, first⟩, onward⟩
        · rw [← same]
          exact ⟨run, Option.isSome_iff_exists.mpr ⟨next, stepped⟩⟩
        · cases stepped.symm.trans first
          exact ih later onward

variable (group : S → Nat)

/-- What an undisturbed loop returns has used up the budget in its last round. -/
theorem budget_reached (calm : Undisturbed step count running n s) (short : count s < n) {fuel : Nat}
    (returns : whileLoop step (within count running n) fuel s = some b) : n ≤ count b ∧
      ∃ a, ReflTransGen (Round step (within count running n)) s a ∧ count a < n ∧ step a = some b := by
  obtain ⟨rounds, stops⟩ := whileLoop_iff.mp ⟨fuel, returns⟩
  have full : n ≤ count b := by
    by_contra less
    have going := (calm b rounds (Nat.lt_of_not_le less)).1
    rw [within, going, decide_eq_true (Nat.lt_of_not_le less)] at stops
    cases stops
  refine ⟨full, ?_⟩
  rcases rounds.cases_tail with same | ⟨a, before, going, stepped⟩
  · rw [same] at full
    exact absurd short (Nat.not_lt.mpr full)
  · exact ⟨a, before, of_decide_eq_true (Bool.and_eq_true_iff.mp going).1, stepped⟩

/-- A loop whose rounds add up groups meets its budget exactly if one of them ends there. -/
theorem budget_exact_iff (calm : Undisturbed step count running n s) (short : count s < n)
    (adds : ∀ a b, ReflTransGen (Round step (within count running n)) s a → step a = some b →
      count b = count a + group a) :
    (∃ fuel b, whileLoop step (within count running n) fuel s = some b ∧ count b = n) ↔
      ∃ a, ReflTransGen (Round step (within count running n)) s a ∧ count a < n ∧ count a + group a = n := by
  constructor
  · rintro ⟨fuel, b, returns, exact_⟩
    obtain ⟨_, a, rounds, less, stepped⟩ := budget_reached calm short returns
    exact ⟨a, rounds, less, (adds a b rounds stepped).symm.trans exact_⟩
  · rintro ⟨a, rounds, less, meets⟩
    obtain ⟨run, ok⟩ := calm a rounds less
    obtain ⟨b, stepped⟩ := Option.isSome_iff_exists.mp ok
    have full : count b = n := (adds a b rounds stepped).trans meets
    have going : within count running n a = true := by
      rw [within, run, decide_eq_true less]
      rfl
    have stops : within count running n b = false := by
      rw [within, full, decide_eq_false (Nat.lt_irrefl n)]
      rfl
    obtain ⟨fuel, returns⟩ := whileLoop_iff.mpr ⟨rounds.tail ⟨going, stepped⟩, stops⟩
    exact ⟨fuel, b, returns, full⟩

/-- A loop that adds at most one in a round and descends in the others meets its budget. -/
theorem budget_exact {r : S → S → Prop} (wf : WellFounded r) (calm : Undisturbed step count running n s)
    (short : count s < n) (adds : ∀ a b, step a = some b → count b = count a + 1 ∨ count b = count a ∧ r b a) :
    ∃ fuel b, whileLoop step (within count running n) fuel s = some b ∧ count b = n := by
  have descends : ∀ a, ReflTransGen (Round step (within count running n)) s a → within count running n a = true →
      ∃ b, step a = some b ∧ Prod.Lex (· < ·) r (n - count b, b) (n - count a, a) := by
    intro a rounds going
    have less : count a < n := of_decide_eq_true (Bool.and_eq_true_iff.mp going).1
    obtain ⟨b, stepped⟩ := Option.isSome_iff_exists.mp (calm a rounds less).2
    refine ⟨b, stepped, ?_⟩
    rcases adds a b stepped with more | ⟨same, lower⟩
    · exact .left _ _ (by omega)
    · rw [same]
      exact .right _ lower
  have lex : WellFounded (Prod.Lex (· < ·) r : Nat × S → Nat × S → Prop) := WellFounded.prod_lex Nat.lt_wfRel.wf wf
  obtain ⟨fuel, b, returns⟩ := whileLoop_returns (InvImage.wf (fun a => (n - count a, a)) lex) descends
  obtain ⟨full, a, _, less, stepped⟩ := budget_reached calm short returns
  refine ⟨fuel, b, returns, ?_⟩
  rcases adds a b stepped with more | ⟨same, _⟩ <;> omega

end Budget

end Sustemu.Lib
