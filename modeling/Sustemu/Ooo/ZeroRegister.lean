import Sustemu.Ooo.Completion

/-!
# The register of x0

`x0` is always mapped to `p0`, and `p0` is always ready. Its value is another
matter: the units write the result of an instruction whose destination is `x0`
like any other, so `p0` is zero as long as all such results are.
-/

set_option autoImplicit false

namespace Sustemu

open Lib Relation

/-- What the header of the engine says about `x0` and `p0`. -/
structure OOOState.ZeroRegister (o : OOOState) : Prop where
  rat : o.rat 0 = 0
  rrat : o.rrat 0 = 0
  ready : (o.prf 0).ready = true
  value : (o.prf 0).value = 0

theorem OOOState.Inv.rat_zero {o : OOOState} (inv : o.Inv) : o.rat 0 = 0 := by
  rw [inv.renamed.rat]
  rcases inv.renamed.mapAt_origin (Nat.le_refl _) 0 with committed | ⟨i, r, _, _, pending, target, _⟩
  · exact committed.trans inv.renamed.zero
  · exact absurd target (target_ne_zero pending)

namespace Engine

variable {σ β : Type} {vm : VMem σ} {cfg : OooConfig β} {e e' : Engine σ β}

/-- The instructions with destination `x0` that get their results get zero. -/
def ZeroResults (e e' : Engine σ β) : Prop :=
  ∀ i, e.ooo.Finishes e'.ooo i → (e'.ooo.rob i).archRd = some 0 → (e'.ooo.rob i).ir.result = 0

theorem Phase.zero_ready {phase : Phase} (regular : e.Regular) (done : phase.step vm cfg e = some e')
    (ready : (e.ooo.prf 0).ready = true) : (e'.ooo.prf 0).ready = true := by
  rcases Phase.gets regular.ok regular.zeroed done with calm | ⟨i, gets⟩
  · rw [calm.zero]
    exact ready
  · rcases gets.zero with ⟨_, written⟩ | ⟨_, kept⟩
    · rw [written]
    · rw [kept]
      exact ready

/-- One phase keeps `p0` at zero exactly if it completes no instruction that writes something else there. -/
theorem Phase.zero_value_iff {phase : Phase} (regular : e.Regular) (regular' : e'.Regular)
    (done : phase.step vm cfg e = some e') (zero : (e.ooo.prf 0).value = 0) :
    (e'.ooo.prf 0).value = 0 ↔ ZeroResults e e' := by
  constructor
  · intro zero' i finishes named
    have gets := Phase.gets_of_finishes regular.ok regular.zeroed done finishes
    rcases gets.zero with ⟨_, written⟩ | ⟨clean, _⟩
    · rw [written] at zero'
      exact zero'
    · exact clean ((regular'.zeroed i finishes.has.1).mpr named)
  · intro clean
    rcases Phase.gets regular.ok regular.zeroed done with calm | ⟨i, gets⟩
    · rw [calm.zero]
      exact zero
    · rcases gets.zero with ⟨named, written⟩ | ⟨_, kept⟩
      · rw [written]
        exact clean i gets.finishes ((regular'.zeroed i gets.finishes.has.1).mp named)
      · rw [kept]
        exact zero

section Runs

variable {cpu : CPUState} {world : World σ} {bpred : β}

theorem runPhases_zero_ready {m : Nat} (done : runPhases vm cfg 0 m (Engine.init cfg cpu world bpred) = some e) :
    (e.ooo.prf 0).ready = true := by
  induction m generalizing e with
  | zero =>
      cases done
      rfl
  | succ m ih =>
      obtain ⟨e₁, before, last⟩ := runPhases_last 0 done
      exact Phase.zero_ready (runPhases_regular before) last (ih before)

variable (vm cfg cpu world bpred) in
/-- In every state of a run `x0` is mapped to `p0` and `p0` is ready, and `p0` is zero in all of them
exactly if every instruction with destination `x0` that gets its result gets zero. -/
theorem zero_register_iff (m : Nat) :
    (∀ j ≤ m, ∀ e, runPhases vm cfg 0 j (Engine.init cfg cpu world bpred) = some e →
      e.ooo.rat 0 = 0 ∧ e.ooo.rrat 0 = 0 ∧ (e.ooo.prf 0).ready = true) ∧
    ((∀ j ≤ m, ∀ e, runPhases vm cfg 0 j (Engine.init cfg cpu world bpred) = some e → e.ooo.ZeroRegister) ↔
      ∀ j < m, ∀ e e', runPhases vm cfg 0 j (Engine.init cfg cpu world bpred) = some e →
        (phaseAt j).step vm cfg e = some e' → ZeroResults e e') := by
  have mapped : ∀ j e, runPhases vm cfg 0 j (Engine.init cfg cpu world bpred) = some e →
      e.ooo.rat 0 = 0 ∧ e.ooo.rrat 0 = 0 ∧ (e.ooo.prf 0).ready = true := fun j e done =>
    ⟨(runPhases_regular done).ok.inv.rat_zero, (runPhases_regular done).ok.inv.renamed.zero, runPhases_zero_ready done⟩
  refine ⟨fun j _ => mapped j, fun zero j short e e' before step => ?_, fun clean j => ?_⟩
  · have after := runPhases_next before step
    refine (Phase.zero_value_iff (runPhases_regular before) (runPhases_regular after) step ?_).mp ?_
    · exact (zero j (Nat.le_of_lt short) e before).value
    · exact (zero (j + 1) short e' after).value
  · induction j with
    | zero =>
        intro _ e done
        obtain ⟨rat, rrat, ready⟩ := mapped 0 e done
        cases done
        exact ⟨rat, rrat, ready, cpu.gpr.zero⟩
    | succ j ih =>
        intro long e done
        obtain ⟨rat, rrat, ready⟩ := mapped _ e done
        obtain ⟨e₁, before, last⟩ := runPhases_last 0 done
        rw [Nat.zero_add] at last
        have zero := (ih (Nat.le_of_succ_le long) e₁ before).value
        exact ⟨rat, rrat, ready, (Phase.zero_value_iff (runPhases_regular before) (runPhases_regular done) last zero).mpr
          (clean j long e₁ e before last)⟩

end Runs

/-- `jal x0, 8` leaves its return address in `p0`. -/
theorem zero_register_jump : ∃ e, bootRun (0x0080006f :: List.replicate 63 0x00000013) 5 = some e ∧
    (e.ooo.prf 0).value = 0x80000004 ∧ ¬e.ooo.ZeroRegister := by
  have reached : (bootRun (0x0080006f :: List.replicate 63 0x00000013) 5).any (fun e =>
      (e.ooo.prf 0).value == 0x80000004) = true := by
    decide +kernel
  obtain ⟨e, done, written⟩ := (Option.any_eq_true _ _).mp reached
  have value : (e.ooo.prf 0).value = 0x80000004 := by simpa using written
  refine ⟨e, done, value, fun zero => ?_⟩
  have absurdity := value.symm.trans zero.value
  exact absurd absurdity (by decide)

end Engine

end Sustemu
