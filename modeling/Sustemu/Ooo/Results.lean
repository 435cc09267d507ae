import Sustemu.Ooo.Registers
import Sustemu.Ooo.Forwarding

/-!
# Results in flight

The physical destination of a completed entry holds the entry's result, until
the entry commits. `Sound` collects the invariants that hold along every run,
whatever the program does.
-/

set_option autoImplicit false

namespace Sustemu

open Lib

namespace OOOState

variable {o o' : OOOState}

/-- Completed entries have their results in the register file. -/
def Resulted (o : OOOState) : Prop :=
  ∀ i r, (o.rob i).valid = true → (o.rob i).ready = true → (o.rob i).pending = some r →
    (o.prf r.fresh).value = (o.rob i).ir.result

theorem Resulted.same (resulted : o.Resulted) (rob : o'.rob = o.rob) (prf : o'.prf = o.prf) : o'.Resulted := by
  unfold Resulted
  rw [rob, prf]
  exact resulted

theorem Resulted.completes (resulted : o.Resulted) (inv : o.Inv) {eu : EU} {s : Fin 2} {entry : ROBEntry} {result : Word}
    (completes : o.Completes eu s entry result o') (live : o.Live eu s)
    (pending : entry.pending = (o.slotEntry eu s).pending)
    (value : (o.slotEntry eu s).pending.isSome = true → entry.ir.result = result) : o'.Resulted := by
  have validS := (inv.live_entry live).1
  intro i r valid ready found
  rw [completes.rob] at valid ready found ⊢
  by_cases here : i = (o.latch eu s).robIdx
  · subst here
    rw [setAt_self] at found ⊢
    rw [pending] at found
    rw [(completes.written r found).1, value (by rw [found]; rfl)]
    change (setAt o.prf r.fresh _ r.fresh).value = _
    rw [setAt_self]
  · rw [setAt_of_ne here] at valid ready found ⊢
    have nonzero := inv.renamed.fresh_ne_zero valid found
    rw [completes.prf_of_ne nonzero]
    · exact resulted i r valid ready found
    · intro r' found' same
      exact here (inv.renamed.fresh_injective valid validS found found' same)

theorem Resulted.flushes (resulted : o.Resulted) {b : RobIdx} (flushes : o.Flushes b o') : o'.Resulted := by
  intro i r valid ready found
  have older : o.pos i ≤ o.pos b := by
    by_contra newer
    rw [flushes.newer i (by omega)] at valid
    cases valid
  rw [flushes.older i older] at valid ready found ⊢
  rw [flushes.value]
  exact resulted i r valid ready found

theorem Resulted.afterCommit (resulted : o.Resulted) : o.afterCommit.Resulted := by
  have frame := o.afterCommit_frame
  intro i r valid ready found
  rw [frame.rob] at valid ready found ⊢
  by_cases head : i = o.robHead
  · rw [head, setAt_self] at valid
    cases valid
  · rw [setAt_of_ne head] at valid ready found ⊢
    rw [frame.value]
    exact resulted i r valid ready found

theorem Resulted.rename (resulted : o.Resulted) (inv : o.Inv) {ir : IRInst} {seq : Nat} {slot : RsIdx}
    (renames : o.Renames ir seq slot o') (names : (ir.rd.filter (· ≠ 0)).isSome = true → o.freelist.count ≠ 0) :
    o'.Resulted := by
  intro i r valid ready found
  rw [renames.rob] at valid ready found ⊢
  by_cases last : i = o.robTail
  · rw [last, setAt_self] at ready
    cases ready
  · rw [setAt_of_ne last] at valid ready found ⊢
    have used : r.fresh ∉ o.freeRegs := by
      intro free
      have apart := (List.nodup_append.mp inv.renamed.nodup).2.2
      exact apart _ free _ (List.mem_append_right _ (inv.renamed.mem_inFlight valid found)) rfl
    rw [renames.prf_of_used inv.renamed names used]
    exact resulted i r valid ready found

/-- The value committed for a register. -/
def committedValue (o : OOOState) (a : Reg) : Word := (o.prf (o.rrat a)).value

theorem Completes.committedValue {eu : EU} {s : Fin 2} {entry : ROBEntry} {result : Word}
    (completes : o.Completes eu s entry result o') (inv : o.Inv) (live : o.Live eu s)
    {a : Reg} (nonzero : a ≠ 0) : o'.committedValue a = o.committedValue a := by
  obtain ⟨notZero, _, notFresh⟩ := inv.renamed.rrat_used nonzero
  unfold OOOState.committedValue
  rw [completes.rrat, completes.prf_of_ne notZero]
  exact fun r => notFresh _ r (inv.live_entry live).1

theorem Flushes.committedValue {b : RobIdx} (flushes : o.Flushes b o') (a : Reg) :
    o'.committedValue a = o.committedValue a := by
  unfold OOOState.committedValue
  rw [flushes.rrat, flushes.value]

theorem Renames.committedValue {ir : IRInst} {seq : Nat} {slot : RsIdx} (renames : o.Renames ir seq slot o') (inv : o.Inv)
    (names : (ir.rd.filter (· ≠ 0)).isSome = true → o.freelist.count ≠ 0) {a : Reg} (nonzero : a ≠ 0) :
    o'.committedValue a = o.committedValue a := by
  unfold OOOState.committedValue
  rw [renames.rrat, renames.prf_of_used inv.renamed names (inv.renamed.rrat_used nonzero).2.1]

theorem afterCommit_committedValue (o : OOOState) (a : Reg) : o.afterCommit.committedValue a =
    match (o.rob o.robHead).pending with
    | some r => if a = r.target then (o.prf r.fresh).value else o.committedValue a
    | none => o.committedValue a := by
  have frame := o.afterCommit_frame
  unfold OOOState.committedValue
  rw [frame.rrat, frame.value]
  cases (o.rob o.robHead).pending with
  | none => rfl
  | some r =>
      by_cases same : a = r.target
      · subst same
        rw [applyRename, setAt_self]
        simp
      · rw [applyRename, setAt_of_ne same]
        simp [same]

end OOOState

namespace Engine

variable {σ β : Type} {vm : VMem σ} {cfg : OooConfig β} {e e' : Engine σ β}

theorem BackStep.resulted (step : e.BackStep vm cfg e') (ok : e.ooo.Ok) (resulted : e.ooo.Resulted) :
    e'.ooo.Resulted := by
  have inv := ok.inv
  cases step with
  | commit live ready ordered sound room stored checked =>
      rw [(commits_of_checked stored checked).ooo]
      exact resulted.afterCommit
  | exec bpred fault unit live run completes faulted resolved =>
      exact resulted.completes inv completes live rfl fun _ => rfl
  | redirect live run completes control wrong target =>
      have done := resulted.completes inv completes live rfl fun _ => rfl
      exact (done.flushes (redirect_flushes ok live run completes).2).same rfl rfl
  | address live first executor =>
      rename_i s run
      intro i r valid ready found
      by_cases here : i = (e.ooo.latch .lsu s).robIdx
      · rw [here] at ready
        have waits := (inv.live_entry live).2
        rw [OOOState.rob_setRob_self] at ready
        cases waits.symm.trans ready
      · simp only [OOOState.setRob, setAt_of_ne here] at valid ready found ⊢
        exact resulted i r valid ready found
  | storeDone live computed store completes =>
      refine resulted.completes inv completes live rfl ?_
      rw [ok.store_pending live computed store]
      exact fun absurdity => absurd absurdity Bool.false_ne_true
  | loadFault addressed outside completes => exact resulted.completes inv completes addressed.live rfl fun _ => rfl
  | fill addressed device mapped read completes => exact resulted.completes inv completes addressed.live rfl fun _ => rfl
  | _ => exact resulted.same rfl rfl

theorem FrontStep.resulted (step : e.FrontStep vm cfg e') (ok : e.ooo.Ok) (resulted : e.ooo.Resulted) :
    e'.ooo.Resulted := by
  cases step with
  | rename valid inOrder alone room names renames => exact (resulted.rename ok.inv renames names).same rfl rfl
  | _ => exact resulted.same rfl rfl

/-! ## All invariants together -/

section Sound

variable {Rep : World σ → Flat → Prop} {f : Flat} {pc : Word}

/-- What holds along every run. -/
structure Sound (Rep : World σ → Flat → Prop) (f : Flat) (pc : Word) (e : Engine σ β) : Prop where
  continues : e.Continues pc
  resulted : e.ooo.Resulted
  loads : e.LoadsExact Rep f

theorem BackStep.sound (law : CoherentMemory vm Rep) (step : e.BackStep vm cfg e') (ok : e.ooo.Ok)
    (sound : e.Sound Rep f pc) : e'.Sound Rep f pc :=
  ⟨step.continues ok sound.continues, step.resulted ok sound.resulted, step.loadsExact law ok sound.loads⟩

theorem FrontStep.sound (law : CoherentMemory vm Rep) (mapped : inDram pc = true) (step : e.FrontStep vm cfg e')
    (ok : e.ooo.Ok) (sound : e.Sound Rep f pc) : e'.Sound Rep f pc :=
  ⟨step.continues mapped ok sound.continues, step.resulted ok sound.resulted, step.loadsExact law ok sound.loads⟩

variable (cfg) in
theorem init_sound {cpu : CPUState} (mapped : inDram cpu.pc = true) {world : World σ}
    (rep : Rep world f) (bpred : β) : (Engine.init cfg cpu world bpred).Sound Rep f cpu.pc :=
  ⟨init_continues cfg mapped world bpred, nofun, init_loadsExact cfg cpu rep bpred⟩

end Sound

end Engine

end Sustemu
