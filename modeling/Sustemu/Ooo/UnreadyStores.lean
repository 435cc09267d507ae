import Sustemu.Ooo.Completion

/-!
# The count of stores without data

Renaming counts the words with the opcode of stores, and recovery uncounts those
it discards without data. The load-store unit uncounts what executes as a store.
A word with the opcode but no width of a store completes by a fault instead, and
the counter keeps it for good.
-/

set_option autoImplicit false

namespace Sustemu

open Lib Relation

/-- Of the words with the opcode of stores, the stores are the four with a width. -/
theorem irSelect_store_iff {raw : Raw} (opcode : opcode7Of raw = 0x23) :
    (irSelect raw).2.1.itype = .store ↔ funct3Of raw < 4 := by
  have selected : opcodeOf raw = 0x08 := by
    rw [opcodeOf_eq, opcode]
  unfold irSelect
  simp only [selected]
  split
  · next width => simp [width, ExecFn.itype]
  · next width => simp [width, ExecFn.itype]
  · next width => simp [width, ExecFn.itype]
  · next width => simp [width, ExecFn.itype]
  · next byte half word double =>
      refine iff_of_false nofun fun small => ?_
      have width : funct3Of raw = 0 ∨ funct3Of raw = 1 ∨ funct3Of raw = 2 ∨ funct3Of raw = 3 := by omega
      rcases width with is | is | is | is
      · exact byte is
      · exact half is
      · exact word is
      · exact double is

namespace Engine

variable {σ β : Type} {vm : VMem σ} {cfg : OooConfig β} {e e' : Engine σ β}

/-- The words with the opcode of stores that get their results are stores. -/
def StoreWords (e e' : Engine σ β) : Prop :=
  ∀ i, e.ooo.Finishes e'.ooo i → opcode7Of (e'.ooo.rob i).ir.raw = 0x23 → funct3Of (e'.ooo.rob i).ir.raw < 4

theorem misfit_iff {i : RobIdx} (regular : e.Regular) (has : e.ooo.Has i) :
    (e.ooo.rob i).misfit = true ↔
      opcode7Of (e.ooo.rob i).ir.raw = 0x23 ∧ ¬funct3Of (e.ooo.rob i).ir.raw < 4 := by
  unfold ROBEntry.misfit
  rw [Bool.and_eq_true, beq_iff_eq, bne_iff_ne, (regular.typed i has.1 has.2).itype]
  exact and_congr_right fun opcode => not_congr (irSelect_store_iff opcode)

theorem Phase.surplus {phase : Phase} (regular : e.Regular) (regular' : e'.Regular)
    (done : phase.step vm cfg e = some e') :
    e'.ooo.surplus = e.ooo.surplus ∧ StoreWords e e' ∨ e'.ooo.surplus = e.ooo.surplus + 1 ∧ ¬StoreWords e e' := by
  rcases Phase.gets regular.ok regular.zeroed done with calm | ⟨i, gets⟩
  · refine .inl ⟨calm.surplus, fun i finishes => ?_⟩
    exact absurd (finishes.waits.2.symm.trans (calm.has i finishes.has).2) Bool.false_ne_true
  · have misfit := misfit_iff regular' gets.finishes.has
    have counted := gets.surplus
    cases fits : (e'.ooo.rob i).misfit with
    | false =>
        rw [fits] at counted misfit
        refine .inl ⟨by simpa using counted, fun j finishes opcode => ?_⟩
        have same : j = i := by
          by_contra other
          exact absurd (finishes.waits.2.symm.trans (gets.others j other finishes.has).2) Bool.false_ne_true
        rw [same] at opcode ⊢
        by_contra wide
        exact absurd (misfit.mpr ⟨opcode, wide⟩) Bool.false_ne_true
    | true =>
        rw [fits] at counted misfit
        obtain ⟨opcode, wide⟩ := misfit.mp rfl
        exact .inr ⟨by simpa using counted, fun words => wide (words i gets.finishes opcode)⟩

section Runs

variable {cpu : CPUState} {world : World σ} {bpred : β}

variable (vm cfg cpu world bpred) in
/-- The counter is never below the number of stores without data, and it is that number throughout a run
exactly if every word with the opcode of stores that gets its result is a store. -/
theorem unready_store_count_iff (m : Nat) :
    (∀ j ≤ m, ∀ e, runPhases vm cfg 0 j (Engine.init cfg cpu world bpred) = some e →
      0 ≤ e.ooo.unreadyStoreCount ∧ (e.ooo.unreadyStores : Int) ≤ e.ooo.unreadyStoreCount) ∧
    ((∀ j ≤ m, ∀ e, runPhases vm cfg 0 j (Engine.init cfg cpu world bpred) = some e →
      e.ooo.unreadyStoreCount = e.ooo.unreadyStores) ↔
      ∀ j < m, ∀ e e', runPhases vm cfg 0 j (Engine.init cfg cpu world bpred) = some e →
        (phaseAt j).step vm cfg e = some e' → StoreWords e e') := by
  have exact_iff : ∀ e : Engine σ β, e.ooo.unreadyStoreCount = e.ooo.unreadyStores ↔ e.ooo.surplus = 0 :=
    fun e => Int.sub_eq_zero.symm
  have nonneg : ∀ j e, runPhases vm cfg 0 j (Engine.init cfg cpu world bpred) = some e → 0 ≤ e.ooo.surplus := by
    intro j
    induction j with
    | zero =>
        intro e done
        cases done
        exact Int.le_refl 0
    | succ j ih =>
        intro e done
        obtain ⟨e₁, before, last⟩ := runPhases_last 0 done
        have least := ih e₁ before
        rcases Phase.surplus (runPhases_regular before) (runPhases_regular done) last with ⟨same, _⟩ | ⟨more, _⟩
        · rwa [same]
        · rw [more]
          exact Int.le_add_one least
  refine ⟨fun j _ e done => ?_, fun equal j short e e' before step => ?_, fun words j => ?_⟩
  · have least := Int.sub_nonneg.mp (nonneg j e done)
    exact ⟨Int.le_trans (Int.natCast_nonneg _) least, least⟩
  · have after := runPhases_next before step
    have zero := (exact_iff e).mp (equal j (Nat.le_of_lt short) e before)
    have zero' := (exact_iff e').mp (equal (j + 1) short e' after)
    rcases Phase.surplus (runPhases_regular before) (runPhases_regular after) step with ⟨_, words⟩ | ⟨more, _⟩
    · exact words
    · rw [zero, zero'] at more
      cases more
  · simp only [exact_iff]
    induction j with
    | zero =>
        intro _ e done
        cases done
        rfl
    | succ j ih =>
        intro long e done
        obtain ⟨e₁, before, last⟩ := runPhases_last 0 done
        rw [Nat.zero_add] at last
        rcases Phase.surplus (runPhases_regular before) (runPhases_regular done) last with ⟨same, _⟩ | ⟨_, other⟩
        · rw [same]
          exact ih (Nat.le_of_succ_le long) e₁ before
        · exact absurd (words j long e₁ e before last) other

end Runs

/-- `mul x1, x0, x0`, `beq x1, x0, 8`, and on the wrong path behind the branch a word with the opcode of
stores and no width. -/
def misfitProgram : List Raw := [0x020000b3, 0x00008463, 0x00007023] ++ List.replicate 61 0x00000013

/-- No store waits for its data, and the counter says that one does. -/
theorem unready_store_count_misfit : ∃ e, bootRun misfitProgram 9 = some e ∧ e.ooo.unreadyStoreCount = 1 ∧
    e.ooo.unreadyStores = 0 := by
  have reached : (bootRun misfitProgram 9).any (fun e =>
      e.ooo.unreadyStoreCount == 1 && (List.finRange 32).all fun i => !(e.ooo.rob i).unreadyStore) = true := by
    decide +kernel
  obtain ⟨e, done, both⟩ := (Option.any_eq_true _ _).mp reached
  obtain ⟨one, none⟩ := Bool.and_eq_true_iff.mp both
  refine ⟨e, done, by simpa using one, Finset.card_eq_zero.mpr (Finset.filter_eq_empty_iff.mpr fun i _ => ?_)⟩
  simpa using List.all_eq_true.mp none i (List.mem_finRange i)

end Engine

end Sustemu
