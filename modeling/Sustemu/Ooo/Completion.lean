import Sustemu.Ooo.Difftest
import Sustemu.Ooo.FrontEngine
import Sustemu.Ooo.Phases
import Mathlib.Algebra.BigOperators.Group.Finset.Basic
import Mathlib.Algebra.BigOperators.Group.Finset.Piecewise

/-!
# Completions, phase by phase

The step relations leave two parts of the state open: the register `p0` and the
count of stores without data. Here the phases themselves are followed. A phase
is calm, or it is the phase of a unit slot and one instruction gets its result.
-/

set_option autoImplicit false

namespace Sustemu

open Lib Relation

/-- A live entry with the opcode of a store and without its data. -/
def ROBEntry.unreadyStore (entry : ROBEntry) : Bool :=
  entry.valid && !entry.ready && opcode7Of entry.ir.raw == 0x23

/-- An entry with the opcode of a store that did not execute as one. -/
def ROBEntry.misfit (entry : ROBEntry) : Bool := opcode7Of entry.ir.raw == 0x23 && entry.ir.itype != .store

namespace OOOState

variable {o o' o'' : OOOState} {i : RobIdx}

def unreadyStores (o : OOOState) : Nat := (Finset.univ.filter fun i => (o.rob i).unreadyStore = true).card

/-- By how much the counter exceeds what it counts. -/
def surplus (o : OOOState) : Int := o.unreadyStoreCount - o.unreadyStores

/-- The entry has its result. -/
def Has (o : OOOState) (i : RobIdx) : Prop := (o.rob i).valid = true ∧ (o.rob i).ready = true

/-- The entry waits for its result before and has it afterwards. -/
structure Finishes (o o' : OOOState) (i : RobIdx) : Prop where
  waits : (o.rob i).valid = true ∧ (o.rob i).ready = false
  has : o'.Has i

/-- No instruction gets its result. -/
structure Calm (o o' : OOOState) : Prop where
  has : ∀ i, o'.Has i → o.Has i
  zero : o'.prf 0 = o.prf 0
  surplus : o'.surplus = o.surplus

/-- The instruction of entry `i` gets its result, and no other one does. -/
structure Gets (o : OOOState) (i : RobIdx) (o' : OOOState) : Prop where
  finishes : o.Finishes o' i
  others : ∀ j, j ≠ i → o'.Has j → o.Has j
  zero : (o'.rob i).physRd = some 0 ∧ o'.prf 0 = ⟨(o'.rob i).ir.result, true⟩ ∨
    ((o'.rob i).physRd = some 0 → (o'.rob i).ir.result = 0) ∧ o'.prf 0 = o.prf 0
  surplus : o'.surplus = o.surplus + if (o'.rob i).misfit then 1 else 0

/-! ## Counting -/

theorem unreadyStores_update {entry : ROBEntry} (rob : o'.rob = setAt o.rob i entry) :
    o'.unreadyStores + (if (o.rob i).unreadyStore then 1 else 0) =
      o.unreadyStores + if entry.unreadyStore then 1 else 0 := by
  have weight : ∀ o : OOOState, o.unreadyStores = ∑ j, if (o.rob j).unreadyStore then 1 else 0 :=
    fun _ => Finset.card_filter ..
  have replaced : (fun j => if (o'.rob j).unreadyStore then 1 else 0) =
      setAt (fun j => if (o.rob j).unreadyStore then 1 else 0) i (if entry.unreadyStore then 1 else 0) := by
    funext j
    rw [rob]
    by_cases here : j = i
    · rw [here, setAt_self, setAt_self]
    · rw [setAt_of_ne here, setAt_of_ne here]
  rw [weight, weight, replaced, setAt_eq_update, Finset.sum_update_of_mem (Finset.mem_univ i),
    Finset.sum_eq_add_sum_sdiff_singleton_of_mem (Finset.mem_univ i) fun j => if (o.rob j).unreadyStore then 1 else 0]
  omega

/-! ## Calm steps -/

theorem Calm.refl (o : OOOState) : o.Calm o := ⟨fun _ => id, rfl, rfl⟩

theorem Calm.trans (first : o.Calm o') (second : o'.Calm o'') : o.Calm o'' :=
  ⟨fun i has => first.has i (second.has i has), second.zero.trans first.zero, second.surplus.trans first.surplus⟩

theorem Calm.same (rob : o'.rob = o.rob) (zero : o'.prf 0 = o.prf 0)
    (count : o'.unreadyStoreCount = o.unreadyStoreCount) : o.Calm o' := by
  refine ⟨fun i has => ?_, zero, ?_⟩
  · rwa [Has, rob] at has
  · unfold OOOState.surplus unreadyStores
    rw [rob, count]

theorem Calm.update {entry : ROBEntry} (rob : o'.rob = setAt o.rob i entry) (zero : o'.prf 0 = o.prf 0)
    (has : entry.valid = true → entry.ready = true → o.Has i)
    (count : o'.unreadyStoreCount = o.unreadyStoreCount - (if (o.rob i).unreadyStore then 1 else 0) +
      if entry.unreadyStore then 1 else 0) : o.Calm o' := by
  refine ⟨fun j hasJ => ?_, zero, ?_⟩
  · by_cases here : j = i
    · rw [here, Has, rob, setAt_self] at hasJ
      rw [here]
      exact has hasJ.1 hasJ.2
    · rwa [Has, rob, setAt_of_ne here] at hasJ
  · have stores := unreadyStores_update rob
    unfold OOOState.surplus
    rw [count]
    cases before : (o.rob i).unreadyStore <;> cases after : entry.unreadyStore <;>
      simp only [before, after, Bool.false_eq_true, ↓reduceIte] at stores ⊢ <;> omega

theorem Gets.of_update {entry : ROBEntry} (rob : o'.rob = setAt o.rob i entry)
    (waits : (o.rob i).valid = true ∧ (o.rob i).ready = false) (has : entry.valid = true ∧ entry.ready = true)
    (raw : entry.ir.raw = (o.rob i).ir.raw)
    (zero : entry.physRd = some 0 ∧ o'.prf 0 = ⟨entry.ir.result, true⟩ ∨
      (entry.physRd = some 0 → entry.ir.result = 0) ∧ o'.prf 0 = o.prf 0)
    (count : o'.unreadyStoreCount = o.unreadyStoreCount -
      if opcode7Of entry.ir.raw = 0x23 ∧ entry.misfit = false then 1 else 0) : o.Gets i o' := by
  have entryI : o'.rob i = entry := by rw [rob, setAt_self]
  refine ⟨⟨waits, by rw [Has, entryI]; exact has⟩, fun j other hasJ => ?_, by rw [entryI]; exact zero, ?_⟩
  · rwa [Has, rob, setAt_of_ne other] at hasJ
  · have stores := unreadyStores_update rob
    have before : (o.rob i).unreadyStore = (opcode7Of entry.ir.raw == 0x23) := by
      unfold ROBEntry.unreadyStore
      rw [waits.1, waits.2, raw]
      rfl
    have after : entry.unreadyStore = false := by
      unfold ROBEntry.unreadyStore
      rw [has.2, Bool.not_true, Bool.and_false, Bool.false_and]
    rw [before, after] at stores
    unfold OOOState.surplus
    rw [count, entryI]
    cases misfit : entry.misfit with
    | false =>
        by_cases store : opcode7Of entry.ir.raw = 0x23
        · simp [store] at stores ⊢
          omega
        · simp [store] at stores ⊢
          omega
    | true =>
        have store := (Bool.and_eq_true_iff.mp misfit).1
        rw [store] at stores
        simp at stores ⊢
        omega

theorem Gets.calm (gets : o.Gets i o') (rest : o'.Calm o'') (kept : o''.rob i = o'.rob i) : o.Gets i o'' where
  finishes := ⟨gets.finishes.waits, by rw [Has, kept]; exact gets.finishes.has⟩
  others j other has := gets.others j other (rest.has j has)
  zero := by
    rw [kept, rest.zero]
    exact gets.zero
  surplus := by
    rw [kept, rest.surplus]
    exact gets.surplus

theorem Calm.gets (first : o.Calm o') (gets : o'.Gets i o'') (waits : (o.rob i).valid = true ∧ (o.rob i).ready = false) :
    o.Gets i o'' where
  finishes := ⟨waits, gets.finishes.has⟩
  others j other has := first.has j (gets.others j other has)
  zero := by
    rw [← first.zero]
    exact gets.zero
  surplus := by
    rw [← first.surplus]
    exact gets.surplus

/-! ## Recovery -/

theorem rollbackOne_calm (fresh : ∀ i r, (o.rob i).valid = true → (o.rob i).pending = some r → r.fresh ≠ 0) :
    o.Calm o.rollbackOne := by
  unfold rollbackOne
  simp only
  split
  · next valid =>
      refine Calm.update (i := o.robTail - 1)
        (show _ = setAt _ _ { o.rob (o.robTail - 1) with valid := false } from ?_) ?_
        (fun valid _ => absurd valid Bool.false_ne_true) ?_
      · cases (o.rob (o.robTail - 1)).pending with
        | none => split <;> rfl
        | some r => split <;> rfl
      · cases pending : (o.rob (o.robTail - 1)).pending with
        | none => split <;> rfl
        | some r =>
            have other := (fresh _ r valid pending).symm
            split <;> exact setAt_of_ne other ..
      · have counted : (o.rob (o.robTail - 1)).unreadyStore =
            (!(o.rob (o.robTail - 1)).ready && opcode7Of (o.rob (o.robTail - 1)).ir.raw == 0x23) := by
          unfold ROBEntry.unreadyStore
          rw [valid, Bool.true_and]
        have gone : ({ o.rob (o.robTail - 1) with valid := false } : ROBEntry).unreadyStore = false := rfl
        rw [counted, gone]
        cases (o.rob (o.robTail - 1)).pending with
        | none => split <;> simp [setRob]
        | some r => split <;> simp [setRob, clearReady, setPrf, freelistPush]
  · exact .same rfl rfl rfl

theorem rollback_calm {turns : Nat}
    (fresh : ∀ i r, (o.rob i).valid = true → (o.rob i).pending = some r → r.fresh ≠ 0) : o.Calm (rollback turns o) := by
  induction turns generalizing o with
  | zero => exact .refl o
  | succ turns ih =>
      refine (rollbackOne_calm fresh).trans (ih fun i r valid pending => ?_)
      rcases o.rollbackOne_frame.entry i with same | cleared
      · rw [same] at valid pending
        exact fresh i r valid pending
      · rw [cleared] at valid
        cases valid

theorem Inv.flushAfter_calm (inv : o.Inv) (b : RobIdx) : o.Calm (o.flushAfter b) :=
  (rollback_calm fun _ _ => inv.renamed.fresh_ne_zero).trans (.same rfl rfl rfl)

/-! ## Commit and rename -/

theorem Inv.afterCommit_calm (inv : o.Inv) (live : o.robCount ≠ 0) (ready : (o.rob o.robHead).ready = true) :
    o.Calm o.afterCommit := by
  have valid := inv.renamed.head_valid live
  have old : ∀ r, (o.rob o.robHead).pending = some r → r.previous ≠ 0 := by
    intro r pending
    have within : o.pos o.robHead ≤ o.robCount := Nat.le_of_lt ((inv.renamed.valid _).mp valid)
    rw [inv.renamed.previous _ r valid pending]
    exact inv.renamed.mapAt_ne_zero within (target_ne_zero pending)
  have store : (o.rob o.robHead).unreadyStore = false := by
    unfold ROBEntry.unreadyStore
    rw [ready, Bool.not_true, Bool.and_false, Bool.false_and]
  refine .update (afterCommit_frame o).rob ?_ nofun ?_
  · unfold OOOState.afterCommit
    simp only
    split <;>
    · unfold commitRename
      cases pending : (o.rob o.robHead).pending with
      | none => rfl
      | some r => exact setAt_of_ne (old r pending).symm ..
  · have gone : ({ o.rob o.robHead with valid := false } : ROBEntry).unreadyStore = false := rfl
    rw [store, gone]
    unfold OOOState.afterCommit
    simp only [Bool.false_eq_true, ↓reduceIte, Int.sub_zero, Int.add_zero]
    split <;>
    · unfold commitRename
      cases (o.rob o.robHead).pending <;> rfl

theorem Inv.free_ne_zero (inv : o.Inv) (available : o.freelist.count ≠ 0) : o.freelistPop.1 ≠ 0 := by
  intro zero
  have free : o.freelistPop.1 ∈ o.freeRegs := by
    rw [(freeRegs_pop inv.renamed.freeTail available).1]
    exact List.mem_cons_self
  exact inv.renamed.mapAt_not_free (Nat.zero_le _) 0 free (inv.renamed.zero.trans zero.symm)

theorem Inv.renameInst_calm (inv : o.Inv) {ir : IRInst} {seq : Nat} (renamed : o.renameInst ir seq = some o')
    (room : o.robCount < 32) (names : (ir.rd.filter (· ≠ 0)).isSome = true → o.freelist.count ≠ 0) : o.Calm o' := by
  obtain ⟨slot, renames⟩ := renames_of_renameInst renamed
  have free : (o.rob o.robTail).valid = false := by
    cases valid : (o.rob o.robTail).valid with
    | false => rfl
    | true =>
        have within := (inv.renamed.valid _).mp valid
        rw [inv.renamed.tail, pos, age_add _ room] at within
        exact absurd within (Nat.lt_irrefl _)
  refine .update renames.rob ?_ (fun _ ready => absurd ready Bool.false_ne_true) ?_
  · rw [renames.prf]
    rcases newEntry_cases o ir seq with ⟨_, _, _, same⟩ | ⟨a, nonzero, rd, _, _, changed⟩
    · rw [same]
    · have available : o.freelist.count ≠ 0 := names (by rw [rd]; simpa [Option.filter] using nonzero)
      rw [changed]
      exact setAt_of_ne (inv.free_ne_zero available).symm ..
  · have empty : (o.rob o.robTail).unreadyStore = false := by
      unfold ROBEntry.unreadyStore
      rw [free, Bool.false_and, Bool.false_and]
    have fresh : (o.newEntry ir seq).unreadyStore = (opcode7Of ir.raw == 0x23) := rfl
    rw [empty, fresh]
    unfold renameInst at renamed
    simp only [Option.map_eq_some_iff] at renamed
    obtain ⟨slot, _, rfl⟩ := renamed
    unfold renameDest
    cases ir.rd with
    | none => by_cases store : opcode7Of ir.raw = 0x23 <;> simp [store, rsMaskUpdate, setRob]
    | some a =>
        by_cases zero : a = 0 <;> by_cases store : opcode7Of ir.raw = 0x23 <;>
          simp [zero, store, rsMaskUpdate, setRob, freelistPop, setPrf]

/-! ## Destinations -/

/-- The physical destination is `p0` when the destination is `x0`, and only then. -/
def Zeroed (o : OOOState) : Prop :=
  ∀ i, (o.rob i).valid = true → ((o.rob i).physRd = some 0 ↔ (o.rob i).archRd = some 0)

theorem Zeroed.keep (zeroed : o.Zeroed) (entries : ∀ i, (o'.rob i).valid = true → (o.rob i).valid = true ∧
    (o'.rob i).physRd = (o.rob i).physRd ∧ (o'.rob i).archRd = (o.rob i).archRd) : o'.Zeroed := by
  intro i valid
  obtain ⟨before, physRd, archRd⟩ := entries i valid
  rw [physRd, archRd]
  exact zeroed i before

theorem Zeroed.same (zeroed : o.Zeroed) (rob : o'.rob = o.rob) : o'.Zeroed :=
  zeroed.keep fun i valid => by
    rw [rob] at valid ⊢
    exact ⟨valid, rfl, rfl⟩

theorem Zeroed.update (zeroed : o.Zeroed) {entry : ROBEntry} (rob : o'.rob = setAt o.rob i entry)
    (valid : entry.valid = true → (o.rob i).valid = true) (physRd : entry.physRd = (o.rob i).physRd)
    (archRd : entry.archRd = (o.rob i).archRd) : o'.Zeroed := by
  refine zeroed.keep fun j validJ => ?_
  rw [rob] at validJ ⊢
  by_cases here : j = i
  · rw [here, setAt_self] at validJ ⊢
    exact ⟨valid validJ, physRd, archRd⟩
  · rw [setAt_of_ne here] at validJ ⊢
    exact ⟨validJ, rfl, rfl⟩

theorem Zeroed.flushes (zeroed : o.Zeroed) {b : RobIdx} (flushes : o.Flushes b o') : o'.Zeroed := by
  refine zeroed.keep fun i valid => ?_
  have older : o.pos i ≤ o.pos b := by
    by_contra newer
    rw [flushes.newer i (Nat.lt_of_not_le newer)] at valid
    cases valid
  rw [flushes.older i older] at valid ⊢
  exact ⟨valid, rfl, rfl⟩

theorem Zeroed.renames (zeroed : o.Zeroed) (inv : o.Inv) {ir : IRInst} {seq : Nat} {slot : RsIdx}
    (renames : o.Renames ir seq slot o') (names : (ir.rd.filter (· ≠ 0)).isSome = true → o.freelist.count ≠ 0) :
    o'.Zeroed := by
  intro i valid
  by_cases here : i = o.robTail
  · rw [here, renames.rob, setAt_self]
    unfold newEntry renameDest
    cases rd : ir.rd with
    | none => simp
    | some a =>
        by_cases zero : a = 0
        · simp [zero]
        · have available : o.freelist.count ≠ 0 := names (by rw [rd]; simpa [Option.filter] using zero)
          have fresh : o.freelist.regs o.freelist.head ≠ 0 := inv.free_ne_zero available
          simp [zero, freelistPop, fresh]
  · rw [renames.rob, setAt_of_ne here] at valid ⊢
    exact zeroed i valid

/-! ## Units -/

/-- Adding a fault flag afterwards changes nothing that matters here. -/
theorem Gets.faulted (gets : o.Gets i o') :
    o.Gets i (o'.setRob i { o'.rob i with ir := { (o'.rob i).ir with fault := true } }) := by
  have entry := o'.rob_setRob_self i { o'.rob i with ir := { (o'.rob i).ir with fault := true } }
  have calm : o'.Calm (o'.setRob i { o'.rob i with ir := { (o'.rob i).ir with fault := true } }) := by
    refine .update rfl rfl (fun valid ready => ⟨valid, ready⟩) ?_
    exact (Int.sub_add_cancel ..).symm
  refine ⟨⟨gets.finishes.waits, ?_⟩, fun j other has => gets.others j other (calm.has j has), ?_, ?_⟩
  · rw [Has, entry]
    exact gets.finishes.has
  · rw [entry, calm.zero]
    exact gets.zero
  · rw [entry, calm.surplus]
    exact gets.surplus

theorem Inv.finishExec_gets (inv : o.Inv) {eu : EU} {s : Fin 2} (live : o.Live eu s) (unit : eu ≠ .lsu) {ir : IRInst}
    (raw : ir.raw = (o.slotEntry eu s).ir.raw) : o.Gets (o.latch eu s).robIdx
      ((o.dropLatch eu s).finishExec (o.latch eu s).robIdx (o.latch eu s).physRd ir) := by
  have physRd := (inv.placed.latched eu s live.valid live.kept).physRd
  have notStore : opcode7Of ir.raw ≠ 0x23 := by
    intro store
    have class_ := (inv.placed.latched eu s live.valid live.kept).euType
    rw [show (o.rob (o.latch eu s).robIdx).ir.raw = ir.raw from raw.symm, classify, if_pos (.inr store)] at class_
    exact unit class_
  refine .of_update (inv.completes_finishExec live ir).rob (inv.live_entry live) ⟨(inv.live_entry live).1, rfl⟩ raw ?_ ?_
  · change (o.rob (o.latch eu s).robIdx).physRd = some 0 ∧ _ ∨ ((o.rob (o.latch eu s).robIdx).physRd = some 0 → _) ∧ _
    rw [← physRd]
    unfold finishExec
    cases (o.latch eu s).physRd with
    | none => exact .inr ⟨nofun, rfl⟩
    | some p =>
        by_cases zero : p = 0
        · left
          rw [zero]
          simp only [ne_eq, not_true_eq_false, ↓reduceIte]
          refine ⟨trivial, ?_⟩
          simp [setPrf, setRob]
        · right
          refine ⟨fun same => absurd (Option.some.inj same) zero, ?_⟩
          simp only [ne_eq, zero, not_false_eq_true, ↓reduceIte]
          exact setAt_of_ne (Ne.symm zero) ..
  · rw [if_neg fun store => notStore store.1, Int.sub_zero]
    unfold finishExec
    cases (o.latch eu s).physRd with
    | none => rfl
    | some p =>
        simp only
        split <;> rfl

theorem Inv.lsuFault_gets (inv : o.Inv) {s : Fin 2} (live : o.Live .lsu s) (load : (o.slotEntry .lsu s).ir.itype ≠ .store) :
    o.Gets (o.latch .lsu s).robIdx (Engine.lsuFault o s) := by
  refine .of_update (inv.completes_lsuFault live).rob (inv.live_entry live) ⟨(inv.live_entry live).1, rfl⟩ rfl
    (.inr ⟨fun _ => rfl, ?_⟩) ?_
  · unfold Engine.lsuFault
    cases physRd : (o.latch .lsu s).physRd with
    | none =>
        simp only [physRd]
        rfl
    | some p =>
        simp only [physRd]
        split
        · next nonzero => exact setAt_of_ne (Ne.symm nonzero) ..
        · rfl
  · rw [if_neg ?_, Int.sub_zero]
    · unfold Engine.lsuFault
      cases physRd : (o.latch .lsu s).physRd with
      | none =>
          simp only [physRd]
          rfl
      | some p =>
          simp only [physRd]
          split <;> rfl
    · rintro ⟨store, fits⟩
      simp only [ROBEntry.misfit, store, BEq.rfl, Bool.true_and, bne_eq_false_iff_eq] at fits
      exact load fits

theorem unreadyStoreCount_mshrRelease (o : OOOState) (s : Fin 2) (m : MshrIdx) :
    (o.mshrRelease s m).unreadyStoreCount = o.unreadyStoreCount ∧ (o.mshrRelease s m).prf = o.prf := by
  unfold mshrRelease
  simp only
  split <;> exact ⟨rfl, rfl⟩

theorem Inv.lsuFinish_gets (inv : o.Inv) {s : Fin 2} (live : o.Live .lsu s) (load : (o.slotEntry .lsu s).ir.itype ≠ .store)
    (mshr : Option MshrIdx) (result : Word) : o.Gets (o.latch .lsu s).robIdx (Engine.lsuFinish o s mshr result) := by
  have physRd := (inv.placed.latched .lsu s live.valid live.kept).physRd
  refine .of_update (inv.completes_lsuFinish live mshr result).rob (inv.live_entry live) ⟨(inv.live_entry live).1, rfl⟩ rfl
    ?_ ?_
  · change (o.rob (o.latch .lsu s).robIdx).physRd = some 0 ∧ _ ∨ ((o.rob (o.latch .lsu s).robIdx).physRd = some 0 → _) ∧ _
    rw [← physRd]
    unfold Engine.lsuFinish
    cases physRd : (o.latch .lsu s).physRd with
    | none =>
        simp only [physRd]
        refine .inr ⟨nofun, ?_⟩
        cases mshr with
        | none => rfl
        | some m => exact congrFun (o.unreadyStoreCount_mshrRelease s m).2 0
    | some p =>
        simp only [physRd]
        by_cases zero : p = 0
        · left
          rw [zero]
          refine ⟨rfl, ?_⟩
          simp [setPrf, setRob, dropLatch, setLatch, cdbBroadcast]
        · right
          refine ⟨fun same => absurd (Option.some.inj same) zero, (setAt_of_ne (Ne.symm zero) ..).trans ?_⟩
          cases mshr with
          | none => rfl
          | some m => exact congrFun (o.unreadyStoreCount_mshrRelease s m).2 0
  · rw [if_neg ?_, Int.sub_zero]
    · unfold Engine.lsuFinish
      cases physRd : (o.latch .lsu s).physRd <;> simp only [physRd] <;> cases mshr with
      | none => rfl
      | some m => exact (o.unreadyStoreCount_mshrRelease s m).1
    · rintro ⟨store, fits⟩
      simp only [ROBEntry.misfit, store, BEq.rfl, Bool.true_and, bne_eq_false_iff_eq] at fits
      exact load fits

end OOOState

namespace Engine

variable {σ β : Type} {vm : VMem σ} {cfg : OooConfig β} {e e' : Engine σ β}

theorem BackStep.zeroed (step : e.BackStep vm cfg e') (ok : e.ooo.Ok) (zeroed : e.ooo.Zeroed) : e'.ooo.Zeroed := by
  cases step with
  | commit live ready ordered sound room stored checked =>
      rw [(commits_of_checked stored checked).ooo]
      exact zeroed.update e.ooo.afterCommit_frame.rob nofun rfl rfl
  | exec bpred fault unit live run completes faulted resolved => exact zeroed.update completes.rob id rfl rfl
  | redirect live run completes control wrong target =>
      exact ((zeroed.update completes.rob id rfl rfl).flushes (redirect_flushes ok live run completes).2).same rfl
  | address live first executor => exact zeroed.update rfl id rfl rfl
  | storeDone live computed store completes => exact zeroed.update completes.rob id rfl rfl
  | loadFault addressed outside completes => exact zeroed.update completes.rob id rfl rfl
  | fill addressed device mapped read completes => exact zeroed.update completes.rob id rfl rfl
  | _ => exact zeroed.same rfl

theorem FrontStep.zeroed (step : e.FrontStep vm cfg e') (ok : e.ooo.Ok) (zeroed : e.ooo.Zeroed) : e'.ooo.Zeroed := by
  cases step with
  | rename valid inOrder alone room names renames => exact (zeroed.renames ok.inv renames names).same rfl
  | _ => exact zeroed.same rfl

/-! ## Commit, issue and front end -/

theorem drainStoreBuf_calm (done : e.drainStoreBuf vm cfg = some e') : e.ooo.Calm e'.ooo := by
  unfold drainStoreBuf at done
  simp only at done
  split at done
  · cases done
    exact .refl _
  split at done
  · cases done
    exact .same rfl rfl rfl
  obtain ⟨world, _, rfl⟩ := Option.map_eq_some_iff.mp done
  exact .same rfl rfl rfl

theorem commitOne_calm (ok : e.ooo.Ok) {goesOn : Bool} (done : e.commitOne vm cfg = some (e', goesOn)) :
    e.ooo.Calm e'.ooo := by
  by_cases stops : e.ooo.robCount = 0 ∨ !(e.ooo.rob e.ooo.robHead).valid ∨ !(e.ooo.rob e.ooo.robHead).ready
  · have stopped : e.commitOne vm cfg = some (e, false) := if_pos stops
    cases stopped.symm.trans done
    exact .refl _
  · simp only [not_or, Bool.not_eq_true', Bool.not_eq_false] at stops
    obtain ⟨tcIr, lines, _, ⟨_, rfl⟩ | ⟨_, commits⟩⟩ := commitOne_cases done
    · exact .refl _
    · rw [commits.ooo]
      exact ok.inv.afterCommit_calm stops.1 stops.2.2

theorem commitLoop_calm {turns : Nat} (ok : e.ooo.Ok) (done : commitLoop vm cfg turns e = some e') :
    e.ooo.Calm e'.ooo := by
  induction turns generalizing e with
  | zero =>
      cases done
      exact .refl _
  | succ turns ih =>
      simp only [commitLoop, Option.bind_eq_bind, Option.bind_eq_some_iff] at done
      obtain ⟨⟨e₁, goesOn⟩, one, rest⟩ := done
      have first := commitOne_calm ok one
      split at rest
      · exact first.trans (ih (backSteps_ok (commitOne_steps one) ok) rest)
      · cases rest
        exact first

theorem stageIs_calm (o : OOOState) : o.Calm o.stageIs := by
  have slot : ∀ (o : OOOState) eu s, o.Calm (OOOState.issueSlot eu o s) := by
    intro o eu s
    unfold OOOState.issueSlot
    split
    · exact .refl o
    split
    · exact .refl o
    exact .same rfl rfl rfl
  have unit : ∀ (o : OOOState) (eu : EU), o.Calm (o.issueUnit eu) := by
    intro o eu
    unfold OOOState.issueUnit
    induction eu.slots generalizing o with
    | nil => exact .refl o
    | cons s rest ih => exact (slot o eu s).trans (ih _)
  exact ((unit o .int).trans (unit _ .mul)).trans (unit _ .lsu)

theorem renameSlot_calm (inv : e.ooo.Inv) {n : Fin 2} {used : Nat}
    (goes : renameStall e.ooo n (e.ooo.latchIdRn n).ir used = none) (done : e.renameSlot n = some e') :
    e.ooo.Calm e'.ooo ∧ e'.ooo.Inv := by
  have free : ¬(renameStall e.ooo n (e.ooo.latchIdRn n).ir used).isSome = true := by
    rw [goes]
    exact Bool.false_ne_true
  rw [renameStall_isSome] at free
  simp only [not_or, not_and, Nat.not_le, ge_iff_le] at free
  obtain ⟨o, renamed, rfl⟩ := Option.map_eq_some_iff.mp done
  obtain ⟨slot, renames⟩ := OOOState.renames_of_renameInst renamed
  exact ⟨(inv.renameInst_calm renamed free.2.1 free.2.2.2).trans (.same rfl rfl rfl),
    (inv.rename renames free.2.1 free.2.2.2).same ⟨rfl, rfl, rfl, rfl, rfl, rfl, rfl, rfl, rfl, rfl, rfl, rfl⟩⟩

theorem renameLoop_calm {slots : List (Fin 2)} {used : Nat} (inv : e.ooo.Inv)
    (done : renameLoop slots used e = some e') : e.ooo.Calm e'.ooo := by
  induction slots generalizing e used with
  | nil =>
      cases done
      exact .refl _
  | cons n rest ih =>
      unfold renameLoop at done
      split at done
      · cases done
        exact .refl _
      split at done
      · cases done
        exact .refl _
      next goes =>
      obtain ⟨e₁, first, others⟩ := Option.bind_eq_some_iff.mp done
      obtain ⟨calm, inv₁⟩ := renameSlot_calm inv goes first
      exact calm.trans (ih inv₁ others)

theorem stageRn_calm (inv : e.ooo.Inv) (done : e.stageRn = some e') : e.ooo.Calm e'.ooo := by
  unfold stageRn at done
  split at done
  · cases done
    exact .refl _
  · obtain ⟨e₁, renamed, rfl⟩ := Option.map_eq_some_iff.mp done
    refine (renameLoop_calm inv renamed).trans ?_
    unfold compact
    split
    · exact .same rfl rfl rfl
    · exact .refl _

theorem stageId_calm (e : Engine σ β) : e.ooo.Calm e.stageId.ooo := by
  unfold stageId
  simp only
  split
  · exact .refl _
  · exact .same rfl rfl rfl

theorem stageIf_calm (done : e.stageIf vm cfg = some e') : e.ooo.Calm e'.ooo := by
  have slot : ∀ (e e' : Engine σ β) s goesOn, e.fetchSlot vm cfg s = some (e', goesOn) → e.ooo.Calm e'.ooo := by
    intro e e' s goesOn done
    unfold fetchSlot at done
    simp only at done
    split at done
    · cases done
      exact .same rfl rfl rfl
    obtain ⟨⟨word, world⟩, _, same⟩ := Option.map_eq_some_iff.mp done
    simp only at same
    split at same
    · split at same
      · cases same
        exact .same rfl rfl rfl
      · cases same
        exact .same rfl rfl rfl
    · cases same
      exact .same rfl rfl rfl
  have loop : ∀ (slots : List (Fin 2)) (e : Engine σ β), fetchLoop vm cfg slots e = some e' → e.ooo.Calm e'.ooo := by
    intro slots
    induction slots with
    | nil =>
        intro e done
        cases done
        exact .refl _
    | cons s rest ih =>
        intro e done
        simp only [fetchLoop, Option.bind_eq_bind, Option.bind_eq_some_iff] at done
        obtain ⟨⟨e₁, goesOn⟩, first, others⟩ := done
        have calm := slot e e₁ s goesOn first
        split at others
        · exact calm.trans (ih e₁ others)
        · cases others
          exact calm
  unfold stageIf at done
  split at done
  · cases done
    exact .refl _
  · exact loop _ e done

/-! ## Unit slots -/

theorem intSlot_gets (ok : e.ooo.Ok) {s : Fin 2} (done : e.intSlot vm cfg s = some e') :
    e.ooo.Calm e'.ooo ∨ ∃ i, e.ooo.Gets i e'.ooo := by
  unfold intSlot at done
  simp only at done
  split at done
  · cases done
    exact .inl (.refl _)
  next valid =>
  have live : e.ooo.Live .int s := live_of_valid ok.inv (by decide) (by simpa using valid)
  have entryValid : ((e.ooo.dropLatch .int s).rob (e.ooo.latch .int s).robIdx).valid = true := (ok.inv.live_entry live).1
  rw [if_neg (by simp [entryValid])] at done
  obtain ⟨⟨ir, sys⟩, run, same⟩ := Option.map_eq_some_iff.mp done
  have gets := ok.inv.finishExec_gets live (by decide) (executed_sameInst ok.inv live run).1.raw
  simp only at same
  right
  refine ⟨(e.ooo.latch .int s).robIdx, ?_⟩
  split at same
  · rcases resolveBranch_cases cfg _ (e.ooo.latch .int s).robIdx ir with
      ⟨_, resolved⟩ | ⟨_, resolved⟩ | ⟨_, _, resolved⟩
    · rw [← same, resolved]
      exact gets
    · rw [← same, resolved]
      exact gets.faulted
    · rw [← same, resolved]
      obtain ⟨done, flushes⟩ := redirect_flushes ok live run (ok.inv.completes_finishExec live ir)
      exact gets.calm ((done.inv.flushAfter_calm _).trans (.same rfl rfl rfl)) (flushes.older _ (Nat.le_refl _))
  · rw [← same]
    exact gets

theorem mulFinish_gets (ok : e.ooo.Ok) {s : Fin 2} (valid : (e.ooo.latch .mul s).valid = true)
    (done : e.mulFinish vm s = some e') : e.ooo.Gets (e.ooo.latch .mul s).robIdx e'.ooo := by
  have live : e.ooo.Live .mul s := live_of_valid ok.inv (by decide) valid
  have entryValid : ((e.ooo.dropLatch .mul s).rob (e.ooo.latch .mul s).robIdx).valid = true := (ok.inv.live_entry live).1
  unfold mulFinish at done
  simp only at done
  rw [if_neg (by simp [entryValid])] at done
  obtain ⟨⟨ir, sys⟩, run, rfl⟩ := Option.map_eq_some_iff.mp done
  exact ok.inv.finishExec_gets live (by decide) (executed_sameInst ok.inv live run).1.raw

theorem mulSlot_gets (ok : e.ooo.Ok) {s : Fin 2} (done : e.mulSlot vm s = some e') :
    e.ooo.Calm e'.ooo ∨ ∃ i, e.ooo.Gets i e'.ooo := by
  cases mulSlot_visit ok done with
  | idle same =>
      rw [same]
      exact .inl (.refl _)
  | count live same =>
      rw [same]
      exact .inl (.same rfl rfl rfl)
  | @first cycles live finished =>
      obtain ⟨ok', slot, live'⟩ := live_counted ok live cycles
      have counted : e.ooo.Calm (e.ooo.setLatch .mul s { e.ooo.latch .mul s with cyclesRem := cycles }) := .same rfl rfl rfl
      have gets := mulFinish_gets ok' live'.valid finished
      rw [slot] at gets
      exact .inr ⟨_, counted.gets gets (ok.inv.live_entry live)⟩
  | last live finished => exact .inr ⟨_, mulFinish_gets ok live.valid finished⟩

theorem lsuFill_gets (inv : e.ooo.Inv) {s : Fin 2} {mshr : Option MshrIdx} (addressed : e.ooo.Addressed s)
    (done : e.lsuFill vm s mshr = some e') : e.ooo.Gets (e.ooo.latch .lsu s).robIdx e'.ooo := by
  unfold lsuFill at done
  simp only at done
  split at done
  · cases done
    exact inv.lsuFault_gets addressed.live addressed.load
  · obtain ⟨_, _, rfl⟩ := Option.map_eq_some_iff.mp done
    exact inv.lsuFinish_gets addressed.live addressed.load mshr _

theorem lsuFlushed_calm {s : Fin 2} (done : e.lsuFlushed vm s = some e') : e.ooo.Calm e'.ooo := by
  unfold lsuFlushed at done
  simp only at done
  split at done
  · cases done
    exact .same rfl rfl rfl
  next m _ =>
  split at done
  · cases done
    exact .refl _
  · obtain ⟨_, _, rfl⟩ := Option.map_eq_some_iff.mp done
    obtain ⟨mshr, released, _⟩ := e.ooo.mshrRelease_eq s m
    simp only [released]
    exact .same rfl rfl rfl

/-- A store that executed as one has the opcode of stores and no destination. -/
theorem storeDone_gets (ok : e.ooo.Ok) (zeroed : e.ooo.Zeroed) {s : Fin 2} (live : e.ooo.Live .lsu s)
    (computed : e.ooo.Computed s) (store : (e.ooo.slotEntry .lsu s).ir.itype = .store) :
    e.ooo.Gets (e.ooo.latch .lsu s).robIdx ({ e.ooo.setRob (e.ooo.latch .lsu s).robIdx
      { e.ooo.slotEntry .lsu s with storeData := (e.ooo.slotEntry .lsu s).ir.src2Val, ready := true } with
      unreadyStoreCount := e.ooo.unreadyStoreCount - 1 }.dropLatch .lsu s) := by
  obtain ⟨valid, waiting⟩ := ok.inv.live_entry live
  obtain ⟨decoded, archRd⟩ := ok.decoded _ valid
  have class_ : (irSelect (e.ooo.slotEntry .lsu s).ir.raw).2.1.itype = .store :=
    (ok.computed_typed live computed).itype.symm.trans store
  have memory : opcode7Of (e.ooo.slotEntry .lsu s).ir.raw = 0x03 ∨ opcode7Of (e.ooo.slotEntry .lsu s).ir.raw = 0x23 := by
    have unit := (ok.inv.placed.latched _ _ live.valid live.kept).euType
    unfold OOOState.classify at unit
    split at unit
    · next memory => exact memory
    · split at unit <;> cases unit
  have opcode := opcode7Of_store memory class_
  refine .of_update rfl ⟨valid, waiting⟩ ⟨valid, rfl⟩ rfl (.inr ⟨fun zero => ?_, rfl⟩) ?_
  · have named := (zeroed _ valid).mp zero
    have none : rdOf (e.ooo.slotEntry .lsu s).ir.raw = none := by
      rw [rdOf, irSelect_store class_]
    cases named.symm.trans (archRd.trans none)
  · have fits : (e.ooo.slotEntry .lsu s).misfit = false := by
      unfold ROBEntry.misfit
      rw [store]
      exact Bool.and_false _
    exact congrArg (e.ooo.unreadyStoreCount - ·) (if_pos ⟨opcode, fits⟩).symm

theorem lsuStart_gets (ok : e.ooo.Ok) (zeroed : e.ooo.Zeroed) {s : Fin 2} (live : e.ooo.Live .lsu s)
    (computed : e.ooo.Computed s) (done : e.lsuStart vm s = some e') :
    e.ooo.Calm e'.ooo ∨ e.ooo.Gets (e.ooo.latch .lsu s).robIdx e'.ooo := by
  unfold lsuStart at done
  simp only at done
  split at done
  · next store =>
      cases done
      exact .inr (storeDone_gets ok zeroed live computed store)
  next load =>
  have addressed : e.ooo.Addressed s := ⟨live, computed, load⟩
  split at done
  · split at done
    · cases done
      exact .inl (.same rfl rfl rfl)
    · exact .inr (lsuFill_gets ok.inv addressed done)
  split at done
  · exact .inr (lsuFill_gets (e := { e with
      world := (vm.probeLevel e.world (e.ooo.slotEntry .lsu s).ir.memAddr).2 }) ok.inv addressed done)
  left
  rcases mshrFindOrAlloc_cases e.ooo ((e.ooo.slotEntry .lsu s).ir.memAddr &&& ~~~(63 : Word))
    (levelToLat (vm.probeLevel e.world (e.ooo.slotEntry .lsu s).ir.memAddr).1) with
    full | ⟨m, mshr, allocated, _, _⟩
  · unfold OOOState.slotEntry at full
    rw [full] at done
    cases done
    exact .refl _
  · unfold OOOState.slotEntry at allocated
    rw [allocated] at done
    cases done
    exact .same rfl rfl rfl

variable (cfg) in
include cfg in
theorem lsuSlot_gets (ok : e.ooo.Ok) (zeroed : e.ooo.Zeroed) {s : Fin 2} (done : e.lsuSlot vm s = some e') :
    e.ooo.Calm e'.ooo ∨ ∃ i, e.ooo.Gets i e'.ooo := by
  cases lsuSlot_visit cfg ok done with
  | idle same =>
      rw [same]
      exact .inl (.refl _)
  | flushed valid flushed done => exact .inl (lsuFlushed_calm done)
  | @first _ run live hit executor same step computed started =>
      have waits := ok.inv.live_entry live
      have raw : (run (operands e.ooo (e.ooo.latch .lsu s))).raw = (e.ooo.slotEntry .lsu s).ir.raw :=
        (pure_sameInst (operands e.ooo (e.ooo.latch .lsu s)) executor).1.raw
      have calm : e.ooo.Calm (e.ooo.setRob (e.ooo.latch .lsu s).robIdx
          { e.ooo.slotEntry .lsu s with ir := run (operands e.ooo (e.ooo.latch .lsu s)) }) := by
        refine .update rfl rfl (fun _ ready => absurd (waits.2.symm.trans ready) Bool.false_ne_true) ?_
        have kept : ({ e.ooo.slotEntry .lsu s with ir := run (operands e.ooo (e.ooo.latch .lsu s)) } : ROBEntry).unreadyStore =
            (e.ooo.rob (e.ooo.latch .lsu s).robIdx).unreadyStore := by
          unfold ROBEntry.unreadyStore
          simp only [raw]
          rfl
        rw [kept]
        exact (Int.sub_add_cancel ..).symm
      have ok' := step.ok ok
      have zeroed' := step.zeroed ok zeroed
      subst same
      rcases lsuStart_gets ok' zeroed' ⟨live.valid, live.kept⟩ computed started with rest | gets
      · exact .inl (calm.trans rest)
      · exact .inr ⟨_, calm.gets gets waits⟩
  | waited addressed hit head filled => exact .inr ⟨_, lsuFill_gets ok.inv addressed filled⟩
  | missed addressed index cached filled => exact .inr ⟨_, lsuFill_gets ok.inv addressed filled⟩

/-! ## Phases -/

/-- A phase is calm, or one instruction gets its result. -/
theorem Phase.gets (ok : e.ooo.Ok) (zeroed : e.ooo.Zeroed) {phase : Phase} (done : phase.step vm cfg e = some e') :
    e.ooo.Calm e'.ooo ∨ ∃ i, e.ooo.Gets i e'.ooo := by
  cases phase with
  | drain => exact .inl (drainStoreBuf_calm done)
  | commit => exact .inl (commitLoop_calm (e := { e with tcIr := [] }) ok done)
  | mshr =>
      cases done
      exact .inl (.same rfl rfl rfl)
  | slot eu s =>
      cases eu with
      | int => exact intSlot_gets ok done
      | mul => exact mulSlot_gets ok done
      | lsu => exact lsuSlot_gets cfg ok zeroed done
  | issue =>
      cases done
      exact .inl (stageIs_calm _)
  | rename => exact .inl (stageRn_calm ok.inv done)
  | decode =>
      cases done
      exact .inl (stageId_calm e)
  | fetch => exact .inl (stageIf_calm done)
  | tick =>
      cases done
      exact .inl (.refl _)

theorem oooInit_zeroed (cpu : CPUState) : (oooInit cpu).Zeroed := nofun

theorem Step.zeroed (step : Step vm cfg e e') (ok : e.ooo.Ok) (zeroed : e.ooo.Zeroed) : e'.ooo.Zeroed := by
  rcases step with back | front
  · exact back.zeroed ok zeroed
  · exact front.zeroed ok zeroed

theorem Step.typed (step : Step vm cfg e e') (ok : e.ooo.Ok) (typed : e.ooo.Typed) : e'.ooo.Typed := by
  rcases step with back | front
  · exact back.typed ok typed
  · exact front.typed typed

/-- What the completions of a run rest on. -/
structure Regular (e : Engine σ β) : Prop where
  ok : e.ooo.Ok
  zeroed : e.ooo.Zeroed
  typed : e.ooo.Typed

section Runs

variable {cpu : CPUState} {world : World σ} {bpred : β} {m : Nat}

theorem runPhases_regular (done : runPhases vm cfg 0 m (Engine.init cfg cpu world bpred) = some e) : e.Regular := by
  have kept := runPhases_keep (P := fun e => e.ooo.Zeroed ∧ e.ooo.Typed)
    (fun _ _ ok holds step => ⟨Step.zeroed step ok holds.1, Step.typed step ok holds.2⟩) (oooInit_ok cpu) (oooInit_tidy cpu)
    ⟨oooInit_zeroed cpu, fun _ valid => absurd valid Bool.false_ne_true⟩ done
  exact ⟨kept.1, kept.2.2.1, kept.2.2.2⟩

/-- No two instructions get their results in one phase. -/
theorem Phase.gets_of_finishes (ok : e.ooo.Ok) (zeroed : e.ooo.Zeroed) {phase : Phase}
    (done : phase.step vm cfg e = some e') {i : RobIdx} (finishes : e.ooo.Finishes e'.ooo i) : e.ooo.Gets i e'.ooo := by
  have waiting : ¬e.ooo.Has i := fun has => absurd (finishes.waits.2.symm.trans has.2) Bool.false_ne_true
  rcases Phase.gets ok zeroed done with calm | ⟨j, gets⟩
  · exact absurd (calm.has i finishes.has) waiting
  · by_cases same : i = j
    · rw [same]
      exact gets
    · exact absurd (gets.others i same finishes.has) waiting

/-- The last phase of a run. -/
theorem runPhases_last (n : Nat) (done : runPhases vm cfg n (m + 1) e = some e') :
    ∃ e₁, runPhases vm cfg n m e = some e₁ ∧ (phaseAt (n + m)).step vm cfg e₁ = some e' := by
  rw [runPhases_add] at done
  obtain ⟨e₁, before, last⟩ := Option.bind_eq_some_iff.mp done
  obtain ⟨e₂, step, same⟩ := Option.bind_eq_some_iff.mp last
  cases same
  exact ⟨e₁, before, step⟩

theorem runPhases_next {start : Engine σ β} (before : runPhases vm cfg 0 m start = some e)
    (step : (phaseAt m).step vm cfg e = some e') : runPhases vm cfg 0 (m + 1) start = some e' := by
  rw [runPhases_add, before, Option.bind_some, Nat.zero_add, runPhases, step]
  rfl

end Runs

end Engine

end Sustemu
