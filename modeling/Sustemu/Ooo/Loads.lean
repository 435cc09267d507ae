import Sustemu.Ooo.Operands
import Sustemu.Ooo.StoreOrder

/-!
# Completed loads

A load keeps the value it was filled with until it commits. If by then the
newest store in front of it that reaches into the load contains it, that store
served the load: it was in front of the load when the load was filled, and no
store between the two has appeared since.
-/

set_option autoImplicit false

namespace Sustemu

open Lib

namespace OOOState

variable {o o' : OOOState} {i k : RobIdx}

/-- A completed load of memory. -/
structure Loaded (o : OOOState) (i : RobIdx) : Prop where
  valid : (o.rob i).valid = true
  ready : (o.rob i).ready = true
  opcode : opcode7Of (o.rob i).ir.raw = 0x03
  itype : (o.rob i).ir.itype = .load
  cached : inDram (o.rob i).ir.memAddr = true
  sound : (o.rob i).ir.fault = false

/-- Older stores are complete, and the newest one that reaches into the load has served it if it contains it. -/
structure ServedAt (o : OOOState) (i : RobIdx) : Prop where
  cleared : ∀ j, (o.rob j).valid = true → o.pos j < o.pos i → (o.rob j).isStore = true → (o.rob j).ready = true
  value : forwardsExactly (o.rob i).ir.memAddr.toNat (o.rob i).ir.memWidth (o.pendingWrites i) false = true →
    (o.rob i).ir.result = forward (o.rob i).ir.memAddr.toNat (o.rob i).ir.memWidth (o.rob i).ir.memSign
      (o.pendingWrites i) 0

def Served (o : OOOState) : Prop := ∀ i, o.Loaded i → o.ServedAt i

/-- Slots in front of a slot. -/
theorem mem_olderSlots {j : RobIdx} : j ∈ o.olderSlots i ↔ o.pos j < o.pos i := mem_window_iff (age_lt o.robHead _).le

/-- Older stores are the same if the entries in front are. -/
theorem olderStores_congr (head : o'.robHead = o.robHead) (entries : ∀ j, o.pos j < o.pos i →
    o'.rob j = o.rob j ∨ (o'.rob j).isStore = false ∧ (o.rob j).isStore = false) :
    o'.olderStores i = o.olderStores i := by
  have slots : o'.olderSlots i = o.olderSlots i := by
    unfold olderSlots
    rw [head]
  have general : ∀ slots : List RobIdx, (∀ j ∈ slots, o.pos j < o.pos i) →
      (slots.map o'.rob).filter ROBEntry.isStore = (slots.map o.rob).filter ROBEntry.isStore := by
    intro slots
    induction slots with
    | nil => exact fun _ => rfl
    | cons j rest ih =>
        intro older
        have tail := ih fun k member => older k (List.mem_cons_of_mem _ member)
        rw [List.map_cons, List.map_cons]
        rcases entries j (older j List.mem_cons_self) with same | ⟨new, old⟩
        · rw [List.filter_cons, List.filter_cons, same, tail]
        · rw [List.filter_cons_of_neg (by rw [new]; exact Bool.false_ne_true),
            List.filter_cons_of_neg (by rw [old]; exact Bool.false_ne_true), tail]
  unfold olderStores
  rw [slots]
  exact general _ fun j member => mem_olderSlots.mp member

/-- A load that was served before stays served. -/
theorem ServedAt.keep (served : o.ServedAt i) (entry : o'.rob i = o.rob i) (pending : o'.pendingWrites i = o.pendingWrites i)
    (older : ∀ j, (o'.rob j).valid = true → o'.pos j < o'.pos i → (o'.rob j).isStore = true →
      (o.rob j).valid = true ∧ o.pos j < o.pos i ∧ (o.rob j).isStore = true ∧ ((o.rob j).ready = true → (o'.rob j).ready = true)) :
    o'.ServedAt i := by
  constructor
  · intro j valid before store
    obtain ⟨was, beforeJ, storeJ, keeps⟩ := older j valid before store
    exact keeps (served.cleared j was beforeJ storeJ)
  · rw [entry, pending]
    exact served.value

/-- One entry that was waiting changes. -/
theorem Served.update (served : o.Served) {entry : ROBEntry} (rob : o'.rob = setAt o.rob k entry)
    (head : o'.robHead = o.robHead) (buffered : o'.buffered = o.buffered) (valid : (o.rob k).valid = true)
    (waits : (o.rob k).ready = false) (raw : entry.ir.raw = (o.rob k).ir.raw)
    (new : o'.Loaded k → o'.pendingWrites k = o.pendingWrites k → o'.ServedAt k) : o'.Served := by
  have other : ∀ j, j ≠ k → o'.rob j = o.rob j := fun j different => by
    rw [rob, setAt_of_ne different]
  have isStore : (o'.rob k).isStore = (o.rob k).isStore := by
    unfold ROBEntry.isStore
    rw [rob, setAt_self, raw]
  have pending : ∀ j, (o.pos k < o.pos j → (o.rob k).isStore = false) → o'.pendingWrites j = o.pendingWrites j := by
    intro j clear
    unfold pendingWrites
    rw [buffered, olderStores_congr head]
    intro m older
    by_cases slot : m = k
    · subst slot
      have store := clear older
      exact .inr ⟨isStore.trans store, store⟩
    · exact .inl (other m slot)
  have positions : ∀ j, o'.pos j = o.pos j := by
    intro j
    rw [pos, head]
    rfl
  intro j loaded
  by_cases slot : j = k
  · subst slot
    exact new loaded (pending j fun older => absurd older (Nat.lt_irrefl _))
  · have same := other j slot
    have before := served j ⟨same ▸ loaded.valid, same ▸ loaded.ready, same ▸ loaded.opcode, same ▸ loaded.itype,
      same ▸ loaded.cached, same ▸ loaded.sound⟩
    have clear : o.pos k < o.pos j → (o.rob k).isStore = false := by
      intro older
      by_contra store
      have ready := before.cleared k valid older (by simpa using store)
      cases waits.symm.trans ready
    refine before.keep same (pending j clear) ?_
    intro m validM older store
    rw [positions, positions] at older
    by_cases here : m = k
    · subst here
      rw [isStore, clear older] at store
      cases store
    · rw [other m here] at validM store ⊢
      exact ⟨validM, older, store, id⟩

theorem Loaded.congr {j : RobIdx} (loaded : o'.Loaded j) (same : o'.rob j = o.rob j) : o.Loaded j :=
  ⟨same ▸ loaded.valid, same ▸ loaded.ready, same ▸ loaded.opcode, same ▸ loaded.itype, same ▸ loaded.cached,
    same ▸ loaded.sound⟩

/-- Every entry that is left is as it was, with the same entries in front. -/
theorem Served.older (served : o.Served) (head : o'.robHead = o.robHead) (buffered : o'.buffered = o.buffered)
    (entries : ∀ i, o'.Loaded i → ∀ j, o.pos j ≤ o.pos i → o'.rob j = o.rob j) : o'.Served := by
  intro i loaded
  have same := entries i loaded i (Nat.le_refl _)
  have positions : ∀ j, o'.pos j = o.pos j := by
    intro j
    rw [pos, head]
    rfl
  refine (served i (loaded.congr same)).keep same ?_ ?_
  · unfold pendingWrites
    rw [buffered, olderStores_congr head]
    exact fun j older => .inl (entries i loaded j (Nat.le_of_lt older))
  · intro j valid older store
    rw [positions, positions] at older
    rw [entries i loaded j (Nat.le_of_lt older)] at valid store ⊢
    exact ⟨valid, older, store, id⟩

theorem Served.same (served : o.Served) (rob : o'.rob = o.rob) (head : o'.robHead = o.robHead)
    (buffered : o'.buffered = o.buffered) : o'.Served :=
  served.older head buffered fun _ _ j _ => congrFun rob j

theorem Served.flushes (served : o.Served) {b : RobIdx} (flushes : o.Flushes b o') : o'.Served := by
  obtain ⟨sbuf, head, _, count⟩ := flushes.stores
  refine served.older flushes.head (buffered_congr sbuf head count) ?_
  intro i loaded j older
  apply flushes.older
  refine Nat.le_trans older ?_
  by_contra newer
  have gone := flushes.newer i (by omega)
  rw [loaded.valid] at gone
  cases gone

theorem Served.rename (served : o.Served) (inv : o.Inv) {ir : IRInst} {seq : Nat} {slot : RsIdx}
    (renames : o.Renames ir seq slot o') (room : o.robCount < 32) : o'.Served := by
  obtain ⟨sbuf, head, _, count⟩ := renames.sbuf
  refine served.older renames.head (buffered_congr sbuf head count) ?_
  intro i loaded j older
  have notLast : i ≠ o.robTail := by
    rintro rfl
    have ready := loaded.ready
    rw [renames.rob, setAt_self] at ready
    cases ready
  have valid := loaded.valid
  rw [renames.rob, setAt_of_ne notLast] at valid
  have inside := (inv.renamed.valid i).mp valid
  have last : o.pos o.robTail = o.robCount := by
    unfold pos
    rw [inv.renamed.tail]
    exact age_add o.robHead room
  rw [renames.rob, setAt_of_ne]
  rintro rfl
  omega

theorem Served.popStore (served : o.Served) (buffered : o.Buffered) (waiting : o.sbufCount ≠ 0) (tick : Nat) :
    (o.popStore tick).Served := by
  intro i loaded
  have before := served i (loaded.congr rfl)
  refine ⟨before.cleared, fun exactly => ?_⟩
  have pending : o.pendingWrites i = (o.sbuf o.sbufHead).write :: (o.popStore tick).pendingWrites i := by
    unfold pendingWrites
    rw [buffered_popStore buffered waiting tick]
    rfl
  obtain ⟨whole, value⟩ := forward_tail (o.rob i).ir.memSign exactly 0
  have result := before.value (by rw [pending]; exact whole)
  rw [pending] at result
  exact result.trans value

theorem Served.afterCommit (served : o.Served) (buffered : o.Buffered)
    (room : (o.rob o.robHead).ir.itype = .store → inDram (o.rob o.robHead).ir.memAddr = true →
      o.sbufCount < storeBufSize)
    (filed : (o.rob o.robHead).isStore = true ↔
      (o.rob o.robHead).ir.itype = .store ∧ inDram (o.rob o.robHead).ir.memAddr = true) : o.afterCommit.Served := by
  have frame := o.afterCommit_frame
  have other : ∀ j, (o.afterCommit.rob j).valid = true → j ≠ o.robHead := by
    rintro j valid rfl
    rw [frame.rob, setAt_self] at valid
    cases valid
  have same : ∀ j, j ≠ o.robHead → o.afterCommit.rob j = o.rob j := fun j different => by
    rw [frame.rob, setAt_of_ne different]
  have closer : ∀ j, j ≠ o.robHead → o.pos j = o.afterCommit.pos j + 1 := by
    intro j different
    unfold pos
    rw [frame.head]
    exact age_succ_head different
  intro i loaded
  have notHead := other i loaded.valid
  refine (served i (loaded.congr (same i notHead))).keep (same i notHead) ?_ ?_
  · -- The head moves from the reorder buffer to the store buffer.
    have slots : o.olderSlots i = o.robHead :: o.afterCommit.olderSlots i := by
      change window o.robHead (o.pos i) = _ :: window o.afterCommit.robHead (o.afterCommit.pos i)
      rw [closer i notHead, window_succ, frame.head]
    have behind : (o.afterCommit.olderSlots i).map o.afterCommit.rob = (o.afterCommit.olderSlots i).map o.rob := by
      apply List.map_congr_left
      intro j member
      apply same
      rintro rfl
      have small : o.pos i < 32 := age_lt o.robHead i
      have absent : o.robHead ∉ window (o.robHead + 1) (o.afterCommit.pos i) :=
        head_not_mem_window_tail o.robHead (by rw [← closer i notHead]; omega)
      rw [← frame.head] at absent
      exact absent member
    unfold pendingWrites olderStores
    rw [slots, List.map_cons, behind, buffered_afterCommit]
    by_cases store : (o.rob o.robHead).isStore = true
    · obtain ⟨kind, cached⟩ := filed.mp store
      rw [if_pos ⟨kind, cached⟩, buffered_pushStore buffered (room kind cached), List.filter_cons_of_pos store, List.map_append,
        List.append_assoc]
      rfl
    · rw [if_neg fun both => store (filed.mpr both), List.filter_cons_of_neg store]
  · intro j valid older store
    have notHeadJ := other j valid
    rw [same j notHeadJ] at valid store ⊢
    exact ⟨valid, by rw [closer j notHeadJ, closer i notHead]; omega, store, id⟩

end OOOState

namespace Engine

variable {σ β : Type} {vm : VMem σ} {cfg : OooConfig β} {e e' : Engine σ β}

/-- An entry that completes without being a load of memory. -/
theorem completes_served {eu : EU} {s : Fin 2} {entry : ROBEntry} {result : Word} {o : OOOState} (ok : e.ooo.Ok)
    (served : e.ooo.Served) (live : e.ooo.Live eu s) (completes : e.ooo.Completes eu s entry result o)
    (raw : entry.ir.raw = (e.ooo.slotEntry eu s).ir.raw)
    (new : o.Loaded (e.ooo.latch eu s).robIdx → o.pendingWrites (e.ooo.latch eu s).robIdx =
      e.ooo.pendingWrites (e.ooo.latch eu s).robIdx → o.ServedAt (e.ooo.latch eu s).robIdx) : o.Served := by
  obtain ⟨valid, waits⟩ := ok.inv.live_entry live
  obtain ⟨sbuf, head, _, count⟩ := completes.stores
  exact served.update completes.rob completes.head (OOOState.buffered_congr sbuf head count) valid waits raw new

/-- The load that is filled. -/
theorem filled_served {s : Fin 2} {o : OOOState} {raw : Word} (ok : e.ooo.Ok) (buffered : e.ooo.Buffered)
    (cleared : e.ooo.Cleared) (addressed : e.ooo.Addressed s)
    (completes : e.ooo.Completes .lsu s { e.ooo.slotEntry .lsu s with
      ir := { (e.ooo.slotEntry .lsu s).ir with result := e.ooo.loadValue s raw }
      ready := true } (e.ooo.loadValue s raw) o)
    (loaded : o.Loaded (e.ooo.latch .lsu s).robIdx)
    (pending : o.pendingWrites (e.ooo.latch .lsu s).robIdx = e.ooo.pendingWrites (e.ooo.latch .lsu s).robIdx) :
    o.ServedAt (e.ooo.latch .lsu s).robIdx := by
  obtain ⟨_, _, opcode, load, cached, _⟩ := loaded
  have positions : ∀ j, o.pos j = e.ooo.pos j := by
    intro j
    rw [OOOState.pos, completes.head]
    rfl
  rw [completes.rob, setAt_self] at opcode load cached
  constructor
  · intro j valid older store
    rw [positions, positions] at older
    have different : j ≠ (e.ooo.latch .lsu s).robIdx := by
      rintro rfl
      exact Nat.lt_irrefl _ older
    rw [completes.rob, setAt_of_ne different] at valid store ⊢
    exact cleared s addressed.live opcode j valid older store
  · rw [pending, completes.rob, setAt_self]
    intro exactly
    change e.ooo.loadValue s raw = _
    rw [ok.loadValue_forward buffered cleared addressed load cached]
    exact forward_start _ exactly _ _

theorem executed_served {eu : EU} {s : Fin 2} {perf : Perf} {sys sys' : Sys} {ir : IRInst} {fault : Bool} {o : OOOState}
    (ok : e.ooo.Ok) (served : e.ooo.Served) (unit : eu ≠ .lsu) (live : e.ooo.Live eu s)
    (run : irExecute perf (operands e.ooo (e.ooo.latch eu s)) sys = some (ir, sys'))
    (completes : e.ooo.Completes eu s
      { e.ooo.slotEntry eu s with ir := { ir with fault := ir.fault || fault }, ready := true } ir.result o) :
    o.Served := by
  have raw : ir.raw = (e.ooo.slotEntry eu s).ir.raw := (executed_sameInst ok.inv live run).1.raw
  refine completes_served ok served live completes raw fun loaded _ => ?_
  have opcode := loaded.opcode
  rw [completes.rob, setAt_self] at opcode
  change opcode7Of ir.raw = 0x03 at opcode
  rw [raw] at opcode
  exact absurd (ok.inv.unit_of_opcode live (.inl opcode)) unit

theorem BackStep.served (step : e.BackStep vm cfg e') (ok : e.ooo.Ok) (buffered : e.ooo.Buffered) (cleared : e.ooo.Cleared)
    (filed : ∀ entry ∈ commits e'.log, entry.isStore = true ↔ entry.ir.itype = .store ∧ inDram entry.ir.memAddr = true)
    (served : e.ooo.Served) : e'.ooo.Served := by
  have inv := ok.inv
  cases step with
  | drain waiting written => exact served.popStore buffered waiting _
  | commit live ready ordered sound room stored checked =>
      have step := commits_of_checked stored checked
      obtain ⟨extra, log, _⟩ := step.log
      rw [step.ooo]
      refine served.afterCommit buffered room (filed _ ?_)
      rw [log, commits_append]
      exact List.mem_append_right _ List.mem_cons_self
  | exec bpred fault unit live run completes faulted resolved =>
      exact executed_served ok served unit live run completes
  | redirect live run completes control wrong target =>
      rename_i s ir sys o bpred stats
      have unit : EU.int ≠ .lsu := nofun
      have completed : e.ooo.Completes .int s
          { e.ooo.slotEntry .int s with ir := { ir with fault := ir.fault || false }, ready := true } ir.result o := by
        simpa using completes
      have done := executed_served ok served unit live run completed
      exact (done.flushes (redirect_flushes ok live run completes).2).same rfl rfl rfl
  | address live first executor =>
      rename_i s run
      have same := (OOOState.operands_sameInst e.ooo .lsu s).trans
        (pure_sameInst (operands e.ooo (e.ooo.latch .lsu s)) executor).1
      obtain ⟨valid, waits⟩ := inv.live_entry live
      refine served.update rfl rfl rfl valid waits same.raw fun loaded _ => ?_
      have ready := loaded.ready
      rw [OOOState.rob_setRob_self] at ready
      cases waits.symm.trans ready
  | storeDone live computed store completes =>
      refine completes_served ok served live completes rfl fun loaded _ => ?_
      have load := loaded.itype
      rw [completes.rob, setAt_self] at load
      cases store.symm.trans load
  | loadFault addressed outside completes =>
      refine completes_served ok served addressed.live completes rfl fun loaded _ => ?_
      have sound := loaded.sound
      rw [completes.rob, setAt_self] at sound
      cases sound
  | fill addressed device mapped read completes =>
      exact completes_served ok served addressed.live completes rfl fun loaded pending =>
        filled_served ok buffered cleared addressed completes loaded pending
  | _ => exact served.same rfl rfl rfl

theorem FrontStep.served (step : e.FrontStep vm cfg e') (ok : e.ooo.Ok) (served : e.ooo.Served) : e'.ooo.Served := by
  cases step with
  | rename valid inOrder alone room names renames => exact (served.rename ok.inv renames room).same rfl rfl rfl
  | _ => exact served.same rfl rfl rfl

end Engine

end Sustemu
