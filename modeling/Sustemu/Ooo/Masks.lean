import Sustemu.Ooo.FrontEngine
import Sustemu.Ooo.Phases

/-!
# The masks of the reservation stations

`rs_free_mask` and `rs_ready_mask` repeat what the stations say. Renaming relies
on the first one: after its check there is a station left. Issuing relies on the
second one: an entry is considered exactly when it is ready for the unit.
-/

set_option autoImplicit false

namespace Sustemu

open Lib Relation

namespace OOOState

variable {o : OOOState}

/-- The station holds an instruction that a unit may execute. -/
structure ReadyFor (o : OOOState) (eu : EU) (k : RsIdx) : Prop where
  valid : (o.rs k).valid = true
  src1 : (o.rs k).src1Ready = true
  src2 : (o.rs k).src2Ready = true
  unit : (o.rs k).euType = eu

/-- The station holds a load that an older store or fence delays. -/
structure HeldBack (o : OOOState) (eu : EU) (k : RsIdx) : Prop where
  unit : eu = .lsu
  load : opcode7Of (o.rob (o.rs k).robIdx).ir.raw = 0x03
  blocked : o.loadBlocked (o.rs k).robIdx = true

structure MasksExact (o : OOOState) : Prop where
  free : ∀ k, o.rsFreeMask k = true ↔ (o.rs k).valid = false
  ready : ∀ eu k, o.rsReadyMask eu k = true ↔ o.ReadyFor eu k

theorem Inv.masksExact (inv : o.Inv) : o.MasksExact where
  free k := by
    rw [inv.placed.freeMask]
    simp
  ready eu k := by
    rw [inv.placed.readyMask]
    simp only [Bool.and_eq_true, beq_iff_eq, and_assoc]
    exact ⟨fun ⟨valid, src1, src2, unit⟩ => ⟨valid, src1, src2, unit⟩,
      fun ready => ⟨ready.valid, ready.src1, ready.src2, ready.unit⟩⟩

/-! ## Issue -/

/-- The stations that issuing considers are the ready ones. -/
theorem MasksExact.issuable_iff (exact : o.MasksExact) (eu : EU) (k : RsIdx) :
    o.issuable eu k = true ↔ o.ReadyFor eu k ∧ ¬o.HeldBack eu k := by
  unfold issuable
  rw [Bool.and_eq_true, exact.ready]
  refine and_congr_right fun _ => ?_
  simp only [Bool.not_eq_true', Bool.and_eq_false_iff, beq_eq_false_iff_ne]
  constructor
  · rintro ((notUnit | notLoad) | free) held
    · exact notUnit held.unit
    · exact notLoad held.load
    · exact absurd held.blocked (Bool.eq_false_iff.mp free)
  · intro free
    by_contra all
    simp only [not_or, not_not, Bool.not_eq_false] at all
    exact free ⟨all.1.1, all.1.2, all.2⟩

theorem selectIssue_none {eu : EU} (idle : o.selectIssue eu = none) (k : RsIdx) : o.issuable eu k = false := by
  rw [selectIssue_better] at idle
  exact ((foldl_better (o.issuable eu) (fun i => o.pos (o.rs i).robIdx) (List.finRange 16) none nofun).2 idle).2 k
    (List.mem_finRange k)

theorem Ok.issueSlot (ok : o.Ok) (eu : EU) (s : Fin 2) : (OOOState.issueSlot eu o s).Ok := by
  unfold OOOState.issueSlot
  split
  · exact ok
  next empty =>
  split
  · exact ok
  next k chosen => exact ok.issue (by simpa using empty) chosen

/-- What `ooo_stage_is` chooses from: the ready stations of the unit, less the loads that must wait. -/
def IssueExact (o : OOOState) : Prop :=
  ∀ eu, match o.selectIssue eu with
    | some k => o.ReadyFor eu k ∧ ¬o.HeldBack eu k
    | none => ∀ k, o.ReadyFor eu k → o.HeldBack eu k

theorem MasksExact.issueExact (exact : o.MasksExact) : o.IssueExact := by
  intro eu
  cases chosen : o.selectIssue eu with
  | some k => exact (exact.issuable_iff eu k).mp (selectIssue_some chosen).1
  | none =>
      intro k ready
      by_contra free
      have issuable := (exact.issuable_iff eu k).mpr ⟨ready, free⟩
      rw [selectIssue_none chosen k] at issuable
      cases issuable

/-! ## Rename -/

/-- The count that renaming takes from the mask leaves a station. -/
theorem freeStation_of_used (room : Engine.rsUsed o < rsSize) : ∃ k, o.freeStation = some k := by
  rw [← Option.isSome_iff_exists, Option.isSome_iff_ne_none]
  intro none
  have full : (List.finRange 16).filter o.rsFreeMask = [] :=
    List.filter_eq_nil_iff.mpr fun k member => List.find?_eq_none.mp none k member
  unfold Engine.rsUsed at room
  rw [full] at room
  exact Nat.lt_irrefl _ room

theorem renameInst_of_freeStation (ir : IRInst) (seq : Nat) {k : RsIdx} (station : o.freeStation = some k) :
    ∃ o', o.renameInst ir seq = some o' := by
  unfold renameInst
  simp only [Option.map_eq_some_iff]
  refine ⟨_, k, ?_, rfl⟩
  rw [← station]
  unfold freeStation setRob renameDest
  cases ir.rd with
  | none => rfl
  | some a =>
      simp only
      split <;> rfl

end OOOState

namespace Engine

variable {σ β : Type} {vm : VMem σ} {cfg : OooConfig β} {e : Engine σ β}

theorem renameSlot_some (e : Engine σ β) (n : Fin 2) (room : rsUsed e.ooo < rsSize) :
    ∃ e', e.renameSlot n = some e' ∧ rsUsed e'.ooo = rsUsed e.ooo + 1 := by
  obtain ⟨k, station⟩ := OOOState.freeStation_of_used room
  obtain ⟨o, renamed⟩ := OOOState.renameInst_of_freeStation (e.ooo.latchIdRn n).ir e.nextSeq station
  obtain ⟨slot, renames⟩ := OOOState.renames_of_renameInst renamed
  unfold renameSlot
  simp only [renamed, Option.map_some, Option.some.injEq]
  exact ⟨_, rfl, rsUsed_update renames.free renames.freeMask⟩

/-- The loop never reaches its allocation without a free station. -/
theorem renameLoop_some (slots : List (Fin 2)) (e : Engine σ β) : ∃ e', renameLoop slots (rsUsed e.ooo) e = some e' := by
  induction slots generalizing e with
  | nil => exact ⟨e, rfl⟩
  | cons n rest ih =>
      unfold renameLoop
      split
      · exact ⟨_, rfl⟩
      split
      · exact ⟨_, rfl⟩
      next goes =>
      have room : rsUsed e.ooo < rsSize := by
        by_contra full
        have stall := (renameStall_isSome e.ooo n (e.ooo.latchIdRn n).ir (rsUsed e.ooo)).mpr
          (.inr (.inr (.inl (Nat.not_lt.mp full))))
        rw [goes] at stall
        cases stall
      obtain ⟨e₁, first, used⟩ := renameSlot_some e n room
      obtain ⟨e₂, others⟩ := ih e₁
      rw [first, ← used]
      exact ⟨e₂, others⟩

theorem stageRn_some (e : Engine σ β) : ∃ e', e.stageRn = some e' := by
  unfold stageRn
  split
  · exact ⟨e, rfl⟩
  · obtain ⟨e', done⟩ := renameLoop_some [0, 1] e
    rw [done]
    exact ⟨_, rfl⟩

/-! ## Runs -/

/-- The state after some of the turns of `ooo_stage_is`. -/
def afterTurns (e : Engine σ β) (turns : List (EU × Fin 2)) : OOOState :=
  turns.foldl (fun o turn => OOOState.issueSlot turn.1 o turn.2) e.ooo

theorem afterTurns_ok (ok : e.ooo.Ok) (turns : List (EU × Fin 2)) : (e.afterTurns turns).Ok := by
  unfold afterTurns
  generalize e.ooo = o at ok ⊢
  induction turns generalizing o with
  | nil => exact ok
  | cons turn rest ih => exact ih _ (ok.issueSlot turn.1 turn.2)

/-- Between any two phases of a cycle, and between any two turns of the issue phase, the masks repeat
what the stations say; renaming always finds a station, and issuing considers the ready entries. -/
theorem masks_exact {cpu : CPUState} {world : World σ} {bpred : β} {m : Nat}
    (done : runPhases vm cfg 0 m (Engine.init cfg cpu world bpred) = some e) :
    e.ooo.MasksExact ∧ (∃ e', e.stageRn = some e') ∧
      ∀ turns, (e.afterTurns turns).MasksExact ∧ (e.afterTurns turns).IssueExact := by
  have ok : e.ooo.Ok := (runPhases_keep (P := fun _ => True) (fun _ _ _ _ _ => trivial) (oooInit_ok cpu)
    (oooInit_tidy cpu) trivial done).1
  refine ⟨ok.inv.masksExact, stageRn_some e, fun turns => ?_⟩
  have exact := (afterTurns_ok ok turns).inv.masksExact
  exact ⟨exact, exact.issueExact⟩

/-- Three cycles into `nop`s two instructions are ready for an INT unit. -/
theorem masks_exact_nops : ∃ e, runPhases (hierarchy (.plain 1)) .solo 0 39 (boot (List.replicate 64 0x00000013)) = some e ∧
    e.ooo.ReadyFor .int 0 ∧ e.ooo.ReadyFor .int 1 ∧ e.ooo.MasksExact ∧
    ∀ turns, (e.afterTurns turns).MasksExact ∧ (e.afterTurns turns).IssueExact := by
  have reached : (runPhases (hierarchy (.plain 1)) .solo 0 39 (boot (List.replicate 64 0x00000013))).any (fun e =>
      e.ooo.rsReadyMask .int 0 && e.ooo.rsReadyMask .int 1) = true := by
    decide +kernel
  obtain ⟨e, done, both⟩ := (Option.any_eq_true _ _).mp reached
  obtain ⟨first, second⟩ := Bool.and_eq_true_iff.mp both
  obtain ⟨exact, _, turns⟩ := masks_exact done
  exact ⟨e, done, (exact.ready _ _).mp first, (exact.ready _ _).mp second, exact, turns⟩

end Engine

end Sustemu
