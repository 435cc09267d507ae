import Sustemu.Ooo.Throughput

/-!
# Liveness of the out-of-order engine

The measure of a cycle pays for the commits of a run: a hart commits at least
one instruction in every 439 of its cycles in which it is neither jammed nor
fetches outside of memory, alone or beside another hart. A run that goes on
forever stops committing exactly if it is jammed from some cycle on.
-/

set_option autoImplicit false

namespace Sustemu

open Lib Relation

namespace OOOState

variable {o o' : OOOState}

/-- Nothing is in flight, and fetching is outside of memory. -/
def Lost (o : OOOState) : Prop :=
  o.robCount = 0 ∧ (o.latchIdRn 0).valid = false ∧ (o.latchIfId 0).valid = false ∧ inDram (Engine.truncPc o.fetchPc) = false

instance (o : OOOState) : Decidable o.Lost := by unfold Lost; infer_instance

/-- A cycle from here may bring no commit any closer. -/
def Blocked (o : OOOState) : Prop := o.Jammed ∨ o.Lost

instance (o : OOOState) : Decidable o.Blocked := by unfold Blocked; infer_instance

/-- The measure without the way back to memory. -/
def shortRem (o : OOOState) : Nat := if o.Lost then 303 + o.bufferRem else o.commitRem

theorem Timed.shortRem_le (timed : o.Timed) : o.shortRem ≤ 303 + o.bufferRem := by
  unfold shortRem
  split
  · exact Nat.le_refl _
  · next found =>
      unfold commitRem
      by_cases live : o.robCount = 0
      · have front : o.headRem = 300 + o.frontRem := if_pos live
        have short : o.frontRem ≤ 3 := by
          unfold frontRem
          split
          · decide
          · next first =>
              split
              · decide
              · next second =>
                  have inside : skipRem o.fetchPc = 0 := by
                    unfold skipRem
                    refine if_pos ?_
                    cases mapped : inDram (Engine.truncPc o.fetchPc) with
                    | true => rfl
                    | false => exact absurd ⟨live, by simpa using first, by simpa using second, mapped⟩ found
                  rw [inside]
        omega
      · have bound := timed.headRem_le live
        omega

theorem shortRem_le_commitRem (o : OOOState) : o.shortRem ≤ o.commitRem := by
  unfold shortRem
  split
  · next lost =>
      obtain ⟨empty, first, second, _⟩ := lost
      unfold commitRem headRem frontRem
      rw [if_pos empty, if_neg (by rw [first]; exact Bool.false_ne_true), if_neg (by rw [second]; exact Bool.false_ne_true)]
      omega
  · exact Nat.le_refl _

/-- Cycles between two commits that are not blocked. -/
def cadence : Nat := 438

theorem Timed.shortRem_le_cadence (timed : o.Timed) (buffered : o.sbufCount ≤ 16) : o.shortRem ≤ cadence := by
  have short := timed.shortRem_le
  have tick := timed.drain
  unfold bufferRem at short
  unfold cadence
  omega

theorem oooInit_timed (cpu : CPUState) : (oooInit cpu).Timed :=
  ⟨fun _ => (by decide : (0 : Int) ≤ 39), fun _ valid => absurd valid Bool.false_ne_true, Nat.zero_le 7, rfl⟩

theorem oooInit_counted (cpu : CPUState) : (oooInit cpu).Counted where
  ok := Engine.oooInit_ok cpu
  tidy := Engine.oooInit_tidy cpu
  cached := fun _ _ live _ => absurd live.valid Bool.false_ne_true
  mshrOk := Engine.oooInit_mshrOk cpu
  timed := oooInit_timed cpu

end OOOState

/-! ## Cycles in which the oldest instruction is not ready -/

theorem OOOState.Jammed.unready {o : OOOState} (jammed : o.Jammed) (ok : o.Ok) : (o.rob o.robHead).ready = false := by
  obtain ⟨k, waits⟩ := jammed.waits
  exact (ok.inv.placed.waiting _ _ waits).2

namespace Engine

theorem drainStoreBuf_frame {σ β : Type} {vm : VMem σ} {cfg : OooConfig β} {e e' : Engine σ β}
    (done : e.drainStoreBuf vm cfg = some e') : e'.ooo.rob = e.ooo.rob ∧ e'.ooo.robHead = e.ooo.robHead ∧
      e'.ooo.robCount = e.ooo.robCount ∧ e'.ooo.latch = e.ooo.latch := by
  unfold drainStoreBuf at done
  dsimp only at done
  split at done
  · cases done
    exact ⟨rfl, rfl, rfl, rfl⟩
  · split at done
    · cases done
      exact ⟨rfl, rfl, rfl, rfl⟩
    · obtain ⟨world, _, rfl⟩ := Option.map_eq_some_iff.mp done
      exact ⟨rfl, rfl, rfl, rfl⟩

/-- A commit phase stops at an oldest instruction that is not ready. -/
theorem stageCommit_unready {σ β : Type} {vm : VMem σ} {cfg : OooConfig β} {e : Engine σ β}
    (unready : (e.ooo.rob e.ooo.robHead).ready = false) : e.stageCommit vm cfg = some { e with tcIr := [] } := by
  have stops : Engine.commitOne vm cfg { e with tcIr := [] } = some ({ e with tcIr := [] }, false) := by
    unfold commitOne
    dsimp only
    rw [if_pos]
    rw [unready]
    exact .inr (.inr rfl)
  simp only [stageCommit, commitWidth, commitLoop, stops]
  rfl

theorem cycle_unready {δ β : Type} {mem : MemConfig δ} {cfg : OooConfig β} {e e' : Engine (MemState δ) β}
    (unready : (e.ooo.rob e.ooo.robHead).ready = false) (done : e.cycle (hierarchy mem) cfg = some e') :
    commits e'.log = commits e.log := by
  obtain ⟨drained, committed, last, drain, commit, _, quiet, rfl⟩ := cycle_counts (hierarchy_reports mem) done
  obtain ⟨rob, head, _, _⟩ := drainStoreBuf_frame drain
  have stops : drained.stageCommit (hierarchy mem) cfg = some { drained with tcIr := [] } :=
    stageCommit_unready (by rw [rob, head]; exact unready)
  have log : commits committed.log = commits drained.log := by rw [← Option.some.inj (stops.symm.trans commit)]
  exact quiet.commits.trans (log.trans (drainStoreBuf_silent drain).1)

end Engine

/-! ## Runs of one hart -/

section Hart

variable {δ β : Type} {mem : MemConfig δ} {cfg : OooConfig β}

/-- The first `k` turns of a run, as one hart sees them: in its active turns its engine does a cycle, in the others
nothing happens to it. -/
structure HartRun (mem : MemConfig δ) (cfg : OooConfig β) (active : Nat → Prop) (ooo : Nat → OOOState)
    (log : Nat → List (Event (MemState δ))) (k : Nat) : Prop where
  initial : ∃ cpu, ooo 0 = oooInit cpu
  fresh : log 0 = []
  cycles : ∀ i, i < k → active i → ∃ e e' : Engine (MemState δ) β, e.ooo = ooo i ∧ e.log = log i ∧
    e.cycle (hierarchy mem) cfg = some e' ∧ e'.ooo = ooo (i + 1) ∧ e'.log = log (i + 1)
  rests : ∀ i, i < k → ¬active i → ooo (i + 1) = ooo i ∧ log (i + 1) = log i

namespace HartRun

variable {active : Nat → Prop} {ooo : Nat → OOOState} {log : Nat → List (Event (MemState δ))} {k : Nat}
  (hart : HartRun mem cfg active ooo log k)

include hart

theorem of_le {m : Nat} (shorter : m ≤ k) : HartRun mem cfg active ooo log m where
  initial := hart.initial
  fresh := hart.fresh
  cycles := fun i inside => hart.cycles i (Nat.lt_of_lt_of_le inside shorter)
  rests := fun i inside => hart.rests i (Nat.lt_of_lt_of_le inside shorter)

theorem counted : (ooo k).Counted ∧ StoresKept (ooo k) (log k) := by
  induction k with
  | zero =>
      obtain ⟨cpu, start⟩ := hart.initial
      rw [start, hart.fresh]
      exact ⟨OOOState.oooInit_counted cpu, oooInit_storesKept cpu⟩
  | succ k ih =>
      obtain ⟨counted, kept⟩ := ih (hart.of_le (Nat.le_succ k))
      by_cases turn : active k
      · obtain ⟨e, e', ooo₀, log₀, done, ooo₁, log₁⟩ := hart.cycles k (Nat.lt_succ_self k) turn
        rw [← ooo₀] at counted kept
        rw [← log₀] at kept
        have stores := Engine.cycle_keeps (P := fun e => StoresKept e.ooo e.log)
          (fun _ _ ok kept step => step.storesKept ok kept) (fun _ _ _ kept step => step.storesKept kept)
          counted.ok counted.tidy kept done
        rw [← ooo₁, ← log₁]
        exact ⟨Engine.cycle_counted counted done, stores.2.2⟩
      · obtain ⟨sameOoo, sameLog⟩ := hart.rests k (Nat.lt_succ_self k) turn
        rw [sameOoo, sameLog]
        exact ⟨counted, kept⟩

/-- What one turn does to the account. -/
theorem turn {i : Nat} (inside : i < k) :
    (commits (log i)).length ≤ (commits (log (i + 1))).length ∧
    ((commits (log (i + 1))).length = (commits (log i)).length →
      (ooo (i + 1)).commitRem ≤ (ooo i).commitRem ∧
      (active i → (ooo (i + 1)).commitRem < (ooo i).commitRem ∨ (ooo i).Jammed) ∧
      (ooo (i + 1)).bufferRem ≤ (ooo i).bufferRem) := by
  obtain ⟨counted, _⟩ := (hart.of_le (Nat.le_of_lt inside)).counted
  by_cases turn : active i
  · obtain ⟨e, e', ooo₀, log₀, done, ooo₁, log₁⟩ := hart.cycles i inside turn
    rw [← ooo₀] at counted ⊢
    rw [← log₀, ← ooo₁, ← log₁]
    refine ⟨Engine.cycle_committedCount_le counted done, fun quiet => ?_⟩
    obtain ⟨most, less⟩ := Engine.cycle_commitRem counted done quiet
    exact ⟨most, fun _ => less, Engine.cycle_bufferRem counted done quiet⟩
  · obtain ⟨sameOoo, sameLog⟩ := hart.rests i inside turn
    rw [sameOoo, sameLog]
    exact ⟨Nat.le_refl _, fun _ => ⟨Nat.le_refl _, fun now => absurd now turn, Nat.le_refl _⟩⟩

/-- Every cycle that is not jammed is paid for. -/
theorem paid : Paid (fun i => (commits (log i)).length) (fun i => (ooo i).commitRem)
    (fun i => ¬active i ∨ (ooo i).Jammed) OOOState.patience k where
  bounded := fun i inside => by
    obtain ⟨counted, kept⟩ := (hart.of_le inside).counted
    exact counted.timed.commitRem_le kept.buffered.bounded
  grows := fun i inside => (hart.turn inside).1
  rests := fun i inside quiet => ((hart.turn inside).2 quiet).1
  pays := fun i inside quiet busy => by
    obtain ⟨now, free⟩ := not_or.mp busy
    exact (((hart.turn inside).2 quiet).2.1 (not_not.mp now)).resolve_right free

/-- Cycles that are not blocked are paid for at once. -/
theorem paidShort : Paid (fun i => (commits (log i)).length) (fun i => (ooo i).shortRem)
    (fun i => ¬active i ∨ (ooo i).Blocked) OOOState.cadence k := by
  have falls : ∀ i, i < k → (commits (log (i + 1))).length = (commits (log i)).length →
      (ooo (i + 1)).shortRem ≤ (ooo i).shortRem ∧
      (active i → (ooo (i + 1)).shortRem < (ooo i).shortRem ∨ (ooo i).Blocked) := by
    intro i inside quiet
    obtain ⟨most, less, buffer⟩ := (hart.turn inside).2 quiet
    have timed : (ooo (i + 1)).Timed := ((hart.of_le (Nat.succ_le_of_lt inside)).counted).1.timed
    by_cases lost : (ooo i).Lost
    · have before : (ooo i).shortRem = 303 + (ooo i).bufferRem := if_pos lost
      have after := timed.shortRem_le
      exact ⟨by omega, fun _ => .inr (.inr lost)⟩
    · have before : (ooo i).shortRem = (ooo i).commitRem := if_neg lost
      have after := (ooo (i + 1)).shortRem_le_commitRem
      refine ⟨by omega, fun now => (less now).imp (fun lower => ?_) .inl⟩
      omega
  refine ⟨fun i inside => ?_, fun i inside => (hart.turn inside).1, fun i inside quiet => (falls i inside quiet).1,
    fun i inside quiet busy => ?_⟩
  · obtain ⟨counted, kept⟩ := (hart.of_le inside).counted
    exact counted.timed.shortRem_le_cadence kept.buffered.bounded
  · obtain ⟨now, free⟩ := not_or.mp busy
    exact ((falls i inside quiet).2 (not_not.mp now)).resolve_right free

theorem still {i : Nat} (inside : i < k) (idle : ¬active i ∨ (ooo i).Jammed) :
    (commits (log (i + 1))).length = (commits (log i)).length := by
  by_cases turn : active i
  · obtain ⟨counted, _⟩ := (hart.of_le (Nat.le_of_lt inside)).counted
    obtain ⟨e, e', ooo₀, log₀, done, ooo₁, log₁⟩ := hart.cycles i inside turn
    have jammed := idle.resolve_left (not_not.mpr turn)
    rw [← ooo₀] at counted jammed
    rw [← log₀, ← log₁, Engine.cycle_unready (jammed.unready counted.ok) done]
  · rw [(hart.rests i inside turn).2]

theorem throughput [DecidablePred active] :
    busySteps (fun i => ¬active i ∨ (ooo i).Blocked) k ≤ 438 + 439 * (commits (log k)).length := by
  have balance := hart.paidShort.busy_le
  have start : (commits (log 0)).length = 0 := by
    rw [hart.fresh]
    rfl
  change _ ≤ 438 + 439 * ((commits (log k)).length - (commits (log 0)).length) at balance
  rwa [start, Nat.sub_zero] at balance

end HartRun

/-- The cycles of an engine from its initial state. -/
theorem Engine.hartRun {cpu : CPUState} {world : World (MemState δ)} {bpred : β} {state : Nat → Engine (MemState δ) β}
    (initial : state 0 = .init cfg cpu world bpred) {k : Nat}
    (cycles : ∀ i, i < k → (state i).cycle (hierarchy mem) cfg = some (state (i + 1))) :
    HartRun mem cfg (fun _ => True) (fun i => (state i).ooo) (fun i => (state i).log) k where
  initial := ⟨cpu, by rw [initial]; rfl⟩
  fresh := by rw [initial]; rfl
  cycles := fun i inside _ => ⟨state i, state (i + 1), rfl, rfl, cycles i inside, rfl, rfl⟩
  rests := fun _ _ rests => absurd trivial rests

/-- The turns of two harts, as one of them sees them. -/
theorem OooDual.hartRun {arch : Fin 2 → CoreArch} {world : World (MemState δ)} {bpred : Fin 2 → β} {turn : Nat → Fin 2}
    {state : Nat → OooDual (MemState δ) β} (initial : state 0 = .init cfg arch world bpred) {k : Nat}
    (cycles : ∀ i, i < k → (state i).coreCycle (hierarchy mem) cfg (turn i) = some (state (i + 1))) (h : Fin 2) :
    HartRun mem cfg (fun i => turn i = h) (fun i => ((state i).core h).ooo) (fun i => ((state i).core h).log) k where
  initial := ⟨(arch h).cpu, by rw [initial]; rfl⟩
  fresh := by rw [initial]; rfl
  cycles := fun i inside now => by
    obtain ⟨e, cycled, saved⟩ := Option.map_eq_some_iff.mp (cycles i inside)
    rw [now] at cycled saved
    obtain ⟨ooo, log⟩ := OooDual.engine_save_self (state i) h e
    rw [saved] at ooo log
    exact ⟨(state i).engine h, e, rfl, rfl, cycled, ooo.symm, log.symm⟩
  rests := fun i inside other => by
    obtain ⟨e, _, saved⟩ := Option.map_eq_some_iff.mp (cycles i inside)
    obtain ⟨ooo, log⟩ := OooDual.engine_save_other (state i) (fun same => other same.symm) e
    rw [saved] at ooo log
    exact ⟨ooo, log⟩

end Hart

/-! ## Results -/

section Results

variable {δ β : Type} (mem : MemConfig δ) (cfg : OooConfig β)

/-- Whatever the program, the predictor and the memory do, a hart commits at least one instruction in every 439 of its
cycles in which it is neither jammed nor looking for memory to fetch from. -/
theorem engine_throughput :
    (∀ (cpu : CPUState) (world : World (MemState δ)) (bpred : β) (state : Nat → Engine (MemState δ) β) (k : Nat),
      state 0 = .init cfg cpu world bpred →
      (∀ i, i < k → (state i).cycle (hierarchy mem) cfg = some (state (i + 1))) →
      busySteps (fun i => (state i).ooo.Blocked) k ≤ 438 + 439 * (commits (state k).log).length) ∧
    ∀ (arch : Fin 2 → CoreArch) (world : World (MemState δ)) (bpred : Fin 2 → β) (turn : Nat → Fin 2)
      (state : Nat → OooDual (MemState δ) β) (k : Nat), state 0 = .init cfg arch world bpred →
      (∀ i, i < k → (state i).coreCycle (hierarchy mem) cfg (turn i) = some (state (i + 1))) →
      ∀ h, busySteps (fun i => turn i ≠ h ∨ ((state i).core h).ooo.Blocked) k ≤
        438 + 439 * (commits ((state k).core h).log).length := by
  constructor
  · intro cpu world bpred state k initial cycles
    have bound := (Engine.hartRun initial cycles).throughput
    have same : busySteps (fun i => ¬True ∨ (state i).ooo.Blocked) k = busySteps (fun i => (state i).ooo.Blocked) k :=
      busySteps_congr (fun i => by simp) k
    rwa [same] at bound
  · intro arch world bpred turn state k initial cycles h
    exact (OooDual.hartRun initial cycles h).throughput

end Results

/-- The states of a run. -/
theorem Engine.exists_states {σ β : Type} {vm : VMem σ} {cfg : OooConfig β} {start e : Engine σ β} {k : Nat}
    (done : run vm cfg k start = some e) : ∃ state : Nat → Engine σ β, state 0 = start ∧ state k = e ∧
      ∀ i, i < k → (state i).cycle vm cfg = some (state (i + 1)) := by
  induction k generalizing start with
  | zero =>
      cases done
      exact ⟨fun _ => e, rfl, rfl, fun i inside => absurd inside (Nat.not_lt_zero i)⟩
  | succ k ih =>
      obtain ⟨e₁, first, rest⟩ := Option.bind_eq_some_iff.mp done
      obtain ⟨state, initial, last, cycles⟩ := ih rest
      refine ⟨fun i => i.casesOn start state, rfl, last, fun i inside => ?_⟩
      cases i with
      | zero => exact first.trans (congrArg some initial.symm)
      | succ i => exact cycles i (Nat.lt_of_succ_lt_succ inside)

/-- A row of `nop`: four commits in the first seven cycles. -/
theorem engine_throughput_boot : ∃ state : Nat → Engine (MemState Unit) Unit,
    state 0 = boot (List.replicate 16 0x00000013) ∧ (commits (state 7).log).length = 4 ∧
      busySteps (fun i => (state i).ooo.Blocked) 7 ≤ 438 + 439 * 4 := by
  have reached : (bootRun (List.replicate 16 0x00000013) 7).any (fun e => decide ((commits e.log).length = 4)) = true := by
    decide +kernel
  obtain ⟨e, done, four⟩ := (Option.any_eq_true _ _).mp reached
  obtain ⟨state, initial, last, cycles⟩ := Engine.exists_states done
  have bound := (engine_throughput (.plain 1) .solo).1 _ _ _ state 7 initial cycles
  rw [last, of_decide_eq_true four] at bound
  exact ⟨state, initial, last ▸ of_decide_eq_true four, bound⟩

end Sustemu
