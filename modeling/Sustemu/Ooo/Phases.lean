import Sustemu.Ooo.ControlFlow

/-!
# Phases of a cycle

A cycle is a fixed sequence of phases; the phases of the functional units act
for the instruction in one slot each. Invariants of the steps hold between
phases as they do between cycles. The oldest instruction is never flushed: it
stays until it commits, and a serialising instruction is the oldest from the
moment it is renamed.
-/

set_option autoImplicit false

namespace Sustemu

open Lib Relation

namespace Engine

variable {σ β : Type}

/-- The parts of `ooo_cycle`, with one phase for each slot of a functional unit. -/
inductive Phase where
  | drain | commit | mshr
  | slot (eu : EU) (s : Fin 2)
  | issue | rename | decode | fetch | tick
  deriving DecidableEq, Repr

/-- The phases of a cycle in order. -/
def Phase.order : List Phase :=
  [.drain, .commit, .mshr, .slot .int 0, .slot .int 1, .slot .mul 0, .slot .lsu 0, .slot .lsu 1, .issue, .rename,
    .decode, .fetch, .tick]

/-- The phase that runs at a point of the endless repetition of cycles. -/
def phaseAt (n : Nat) : Phase := Phase.order.getD (n % 13) .tick

section Definitions

variable (vm : VMem σ) (cfg : OooConfig β)

def Phase.step (e : Engine σ β) : Phase → Option (Engine σ β)
  | .drain => e.drainStoreBuf vm cfg
  | .commit => e.stageCommit vm cfg
  | .mshr => some { e with ooo := e.ooo.mshrTick }
  | .slot .int s => e.intSlot vm cfg s
  | .slot .mul s => e.mulSlot vm s
  | .slot .lsu s => e.lsuSlot vm s
  | .issue => some { e with ooo := e.ooo.stageIs }
  | .rename => e.stageRn
  | .decode => some e.stageId
  | .fetch => e.stageIf vm cfg
  | .tick => some e.tick

/-- `m` phases from point `n` on. -/
def runPhases : Nat → Nat → Engine σ β → Option (Engine σ β)
  | _, 0, e => some e
  | n, m + 1, e => ((phaseAt n).step vm cfg e).bind (runPhases (n + 1) m)

end Definitions

variable {vm : VMem σ} {cfg : OooConfig β} {e e' : Engine σ β}

theorem runPhases_add (n a b : Nat) (e : Engine σ β) :
    runPhases vm cfg n (a + b) e = (runPhases vm cfg n a e).bind (runPhases vm cfg (n + a) b) := by
  induction a generalizing n e with
  | zero => simp [runPhases]
  | succ a ih =>
      rw [Nat.succ_add, runPhases, runPhases, Option.bind_assoc]
      congr 1
      funext e₁
      rw [ih, Nat.succ_add_eq_add_succ]

theorem phaseAt_cycle (n : Nat) : phaseAt (n + 13) = phaseAt n := by
  unfold phaseAt
  rw [Nat.add_mod_right]

theorem runPhases_shift (n m : Nat) (e : Engine σ β) : runPhases vm cfg (n + 13) m e = runPhases vm cfg n m e := by
  induction m generalizing n e with
  | zero => rfl
  | succ m ih =>
      rw [runPhases, runPhases, phaseAt_cycle]
      congr 1
      funext e₁
      exact ih (n + 1) e₁

theorem cycle_eq_phases (e : Engine σ β) : e.cycle vm cfg = runPhases vm cfg 0 13 e := by
  simp [cycle, runPhases, phaseAt, Phase.order, Phase.step, unitInt, unitMul, unitLsu, unit, EU.slots,
    Option.bind_assoc]

/-- A run is the phases of its cycles. -/
theorem run_eq_phases (k : Nat) (e : Engine σ β) : run vm cfg k e = runPhases vm cfg 0 (13 * k) e := by
  induction k generalizing e with
  | zero => rfl
  | succ k ih =>
      rw [run, Nat.mul_succ, Nat.add_comm, runPhases_add, cycle_eq_phases]
      congr 1
      funext e₁
      rw [ih, ← runPhases_shift 0]

/-- The last cycle of a run. -/
theorem run_succ (k : Nat) (e : Engine σ β) : run vm cfg (k + 1) e = (run vm cfg k e).bind (cycle vm cfg) := by
  induction k generalizing e with
  | zero => simp [run]
  | succ k ih =>
      rw [run, run, Option.bind_assoc]
      congr 1
      funext e₁
      exact ih e₁

/-! ## Invariants between phases -/

theorem Phase.steps (ok : e.ooo.Ok) (tidy : e.ooo.Tidy) {phase : Phase} (done : phase.step vm cfg e = some e') :
    ReflTransGen (Step vm cfg) e e' ∧ e'.ooo.Tidy := by
  have back : ReflTransGen (BackStep vm cfg) e e' → ReflTransGen (Step vm cfg) e e' ∧ e'.ooo.Tidy :=
    fun steps => ⟨ReflTransGen.mono (fun _ _ => .inl) _ _ steps, backSteps_tidy steps tidy⟩
  cases phase with
  | drain => exact back (drainStoreBuf_steps done)
  | commit => exact back (stageCommit_steps done)
  | mshr =>
      cases done
      exact back (.single (mshrTick_step e))
  | slot eu s =>
      cases eu with
      | int => exact back (intSlot_steps ok done)
      | mul => exact back (mulSlot_steps ok done)
      | lsu => exact back (lsuSlot_steps ok done)
  | issue =>
      cases done
      exact back (stageIs_steps e)
  | rename =>
      obtain ⟨steps, tidy'⟩ := stageRn_steps vm cfg tidy done
      exact ⟨ReflTransGen.mono (fun _ _ => .inr) _ _ steps, tidy'⟩
  | decode =>
      cases done
      obtain ⟨steps, tidy'⟩ := stageId_steps vm cfg ok tidy
      exact ⟨ReflTransGen.mono (fun _ _ => .inr) _ _ steps, tidy'⟩
  | fetch =>
      obtain ⟨steps, kept⟩ := stageIf_steps ok done
      refine ⟨ReflTransGen.mono (fun _ _ => .inr) _ _ steps, ?_⟩
      unfold OOOState.Tidy
      rw [kept]
      exact tidy
  | tick =>
      cases done
      exact ⟨.single (.inr .tick), tidy⟩

theorem backSteps_log (steps : ReflTransGen (BackStep vm cfg) e e') : ∃ extra, e'.log = e.log ++ extra := by
  induction steps with
  | refl => exact ⟨[], (List.append_nil _).symm⟩
  | tail _ step ih =>
      obtain ⟨extra, log⟩ := ih
      obtain ⟨more, next⟩ := step.log_extends
      exact ⟨extra ++ more, by rw [next, log, List.append_assoc]⟩

theorem Step.ok (step : Step vm cfg e e') (ok : e.ooo.Ok) : e'.ooo.Ok := by
  rcases step with back | front
  · exact back.ok ok
  · exact front.ok ok

section Keeps

variable {P : Engine σ β → Prop}

theorem Phase.keeps (keeps : ∀ e e', e.ooo.Ok → P e → Step vm cfg e e' → P e') (ok : e.ooo.Ok) (tidy : e.ooo.Tidy)
    (holds : P e) {phase : Phase} (done : phase.step vm cfg e = some e') : e'.ooo.Ok ∧ e'.ooo.Tidy ∧ P e' := by
  obtain ⟨steps, tidy'⟩ := phase.steps ok tidy done
  have both : e'.ooo.Ok ∧ P e' := by
    clear done tidy'
    induction steps with
    | refl => exact ⟨ok, holds⟩
    | tail _ step ih => exact ⟨Step.ok step ih.1, keeps _ _ ih.1 ih.2 step⟩
  exact ⟨both.1, tidy', both.2⟩

/-- A property that every step keeps holds after any number of phases. -/
theorem runPhases_keep (keeps : ∀ e e', e.ooo.Ok → P e → Step vm cfg e e' → P e') (ok : e.ooo.Ok) (tidy : e.ooo.Tidy)
    (holds : P e) {n m : Nat} (done : runPhases vm cfg n m e = some e') : e'.ooo.Ok ∧ e'.ooo.Tidy ∧ P e' := by
  induction m generalizing n e with
  | zero =>
      cases done
      exact ⟨ok, tidy, holds⟩
  | succ m ih =>
      obtain ⟨e₁, first, rest⟩ := Option.bind_eq_some_iff.mp done
      obtain ⟨ok₁, tidy₁, holds₁⟩ := Phase.keeps keeps ok tidy holds first
      exact ih ok₁ tidy₁ holds₁ rest

end Keeps

end Engine

/-! ## The oldest instruction -/

/-- The instruction with this number has committed or is the oldest one. -/
def Retained {σ : Type} (o : OOOState) (log : List (Event σ)) (seq : Nat) : Prop :=
  (∃ entry ∈ commits log, entry.seq = seq) ∨ o.robCount ≠ 0 ∧ (o.rob o.robHead).seq = seq

namespace OOOState

variable {o o' o'' : OOOState}

/-- The oldest instruction, if there is one, stays the oldest. -/
def HeadStays (o o' : OOOState) : Prop :=
  o.robCount ≠ 0 → o'.robCount ≠ 0 ∧ (o'.rob o'.robHead).seq = (o.rob o.robHead).seq

theorem HeadStays.same (rob : o'.rob = o.rob) (head : o'.robHead = o.robHead) (count : o'.robCount = o.robCount) :
    o.HeadStays o' := by
  intro live
  rw [rob, head, count]
  exact ⟨live, rfl⟩

theorem HeadStays.trans (first : o.HeadStays o') (second : o'.HeadStays o'') : o.HeadStays o'' := by
  intro live
  obtain ⟨live', same⟩ := first live
  obtain ⟨live'', same'⟩ := second live'
  exact ⟨live'', same'.trans same⟩

theorem HeadStays.update {i : RobIdx} {entry : ROBEntry} (rob : o'.rob = setAt o.rob i entry)
    (head : o'.robHead = o.robHead) (count : o'.robCount = o.robCount) (seq : entry.seq = (o.rob i).seq) :
    o.HeadStays o' := by
  intro live
  rw [rob, head, count]
  refine ⟨live, ?_⟩
  by_cases here : o.robHead = i
  · rw [here, setAt_self, seq]
  · rw [setAt_of_ne here]

/-- The head is never newer than the instruction that flushes. -/
theorem Flushes.head_entry {b : RobIdx} (flushes : o.Flushes b o') :
    o'.rob o'.robHead = o.rob o.robHead ∧ o'.robCount ≠ 0 := by
  rw [flushes.head, flushes.count]
  refine ⟨flushes.older _ ?_, Nat.succ_ne_zero _⟩
  unfold pos
  rw [age_self]
  exact Nat.zero_le _

theorem HeadStays.flushes {b : RobIdx} (flushes : o.Flushes b o') : o.HeadStays o' := by
  intro _
  obtain ⟨same, live⟩ := flushes.head_entry
  rw [same]
  exact ⟨live, rfl⟩

theorem Renames.head_entry (inv : o.Inv) (room : o.robCount < 32) {ir : IRInst} {seq : Nat} {slot : RsIdx}
    (renames : o.Renames ir seq slot o') (live : o.robCount ≠ 0) : o'.rob o'.robHead = o.rob o.robHead := by
  rw [renames.rob, renames.head, setAt_of_ne]
  intro same
  have position : o.pos o.robHead = o.robCount := by
    rw [same, pos, inv.renamed.tail, age_add _ room]
  rw [pos, age_self] at position
  exact live position.symm

theorem HeadStays.rename (inv : o.Inv) (room : o.robCount < 32) {ir : IRInst} {seq : Nat} {slot : RsIdx}
    (renames : o.Renames ir seq slot o') : o.HeadStays o' := by
  intro live
  rw [renames.head_entry inv room live, renames.count]
  exact ⟨Nat.succ_ne_zero _, rfl⟩

end OOOState

theorem Retained.keep {σ : Type} {o o' : OOOState} {log extra : List (Event σ)} {seq : Nat}
    (retained : Retained o log seq) (stays : o.HeadStays o') : Retained o' (log ++ extra) seq := by
  rcases retained with ⟨entry, done, same⟩ | ⟨live, oldest⟩
  · left
    rw [commits_append]
    exact ⟨entry, List.mem_append_left _ done, same⟩
  · obtain ⟨live', same⟩ := stays live
    exact .inr ⟨live', same.trans oldest⟩

namespace Engine

variable {σ β : Type} {vm : VMem σ} {cfg : OooConfig β} {e e' : Engine σ β} {seq : Nat}

theorem Commits.retained (step : Commits vm e e') (retained : Retained e.ooo e.log seq) : Retained e'.ooo e'.log seq := by
  obtain ⟨extra, log, _⟩ := step.log
  left
  rw [log, commits_append]
  rcases retained with ⟨entry, done, same⟩ | ⟨_, oldest⟩
  · exact ⟨entry, List.mem_append_left _ done, same⟩
  · exact ⟨_, List.mem_append_right _ List.mem_cons_self, oldest⟩

theorem BackStep.retained (step : e.BackStep vm cfg e') (ok : e.ooo.Ok) (retained : Retained e.ooo e.log seq) :
    Retained e'.ooo e'.log seq := by
  obtain ⟨extra, log⟩ := step.log_extends
  rw [log]
  cases step with
  | commit live ready ordered sound room stored checked =>
      rw [← log]
      exact (commits_of_checked stored checked).retained retained
  | exec bpred fault unit live run completes faulted resolved =>
      exact retained.keep (.update completes.rob completes.head completes.count rfl)
  | redirect live run completes control wrong target =>
      have executed : e.ooo.HeadStays _ := .update completes.rob completes.head completes.count rfl
      have flushed := executed.trans (.flushes (redirect_flushes ok live run completes).2)
      exact retained.keep (flushed.trans (.same rfl rfl rfl))
  | address live first executor => exact retained.keep (.update rfl rfl rfl rfl)
  | storeDone live computed store completes =>
      exact retained.keep (.update completes.rob completes.head completes.count rfl)
  | loadFault addressed outside completes =>
      exact retained.keep (.update completes.rob completes.head completes.count rfl)
  | fill addressed device mapped read completes =>
      exact retained.keep (.update completes.rob completes.head completes.count rfl)
  | _ => exact retained.keep (.same rfl rfl rfl)

theorem FrontStep.retained (step : e.FrontStep vm cfg e') (ok : e.ooo.Ok) (retained : Retained e.ooo e.log seq) :
    Retained e'.ooo e'.log seq := by
  obtain ⟨extra, log⟩ := step.log_extends
  rw [log]
  cases step with
  | rename valid inOrder alone room names renames =>
      exact retained.keep ((OOOState.HeadStays.rename ok.inv room renames).trans (.same rfl rfl rfl))
  | _ => exact retained.keep (.same rfl rfl rfl)

/-- An instruction that was the oldest one is never removed before it commits. -/
theorem Step.retained (step : Step vm cfg e e') (ok : e.ooo.Ok) (retained : Retained e.ooo e.log seq) :
    Retained e'.ooo e'.log seq := by
  rcases step with back | front
  · exact back.retained ok retained
  · exact front.retained ok retained

end Engine

end Sustemu
