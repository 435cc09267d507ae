import Sustemu.Cpu.Core
import Sustemu.Ooo.Buffer
import Sustemu.Ooo.ControlFlow

/-!
# Order of committed stores

The store buffer is a ring between commit and memory. Along every run of a
hart, alone or beside another one, the stores drained so far followed by those
still buffered are the committed cacheable stores, in order.
-/

set_option autoImplicit false

namespace Sustemu

open Lib Engine

/-- The stores that have left the store buffer. -/
def drains {σ : Type} (log : List (Event σ)) : List StoreBufEntry :=
  log.filterMap fun event =>
    match event with
    | .drain entry => some entry
    | _ => none

theorem drains_append {σ : Type} (log extra : List (Event σ)) : drains (log ++ extra) = drains log ++ drains extra :=
  List.filterMap_append ..

theorem drains_quiet {σ : Type} (log : List (Event σ)) {extra : List (Event σ)}
    (quiet : ∀ event ∈ extra, ∀ entry, event ≠ .drain entry) : drains (log ++ extra) = drains log := by
  have none : drains extra = [] := by
    apply List.filterMap_eq_nil_iff.mpr
    intro event member
    cases event with
    | drain entry => exact absurd rfl (quiet _ member entry)
    | pop | fill | commit | logLine | mismatch => rfl
  rw [drains_append, none, List.append_nil]

/-- Address, width and data of a store. -/
abbrev StoreData := Word × Nat × Word

def StoreBufEntry.store (entry : StoreBufEntry) : StoreData := (entry.addr, entry.width, entry.data)

/-- The store that a commit puts into the store buffer. -/
def ROBEntry.cacheableStore (entry : ROBEntry) : Option StoreData :=
  if entry.ir.itype = .store ∧ inDram entry.ir.memAddr = true then
    some (entry.ir.memAddr, entry.ir.memWidth, entry.storeData)
  else none

namespace OOOState

variable {o o' : OOOState}

/-- No entry outside the ring is valid. -/
def RingOnly (o : OOOState) : Prop := ∀ i, (o.sbuf i).valid = true → i ∈ window o.sbufHead o.sbufCount

theorem RingOnly.pushStore (only : o.RingOnly) (buffered : o.Buffered) (entry : ROBEntry) :
    (o.pushStore entry).RingOnly := by
  intro i valid
  change i ∈ window o.sbufHead (o.sbufCount + 1)
  rw [window_succ_last, ← buffered.tail]
  change (setAt o.sbuf o.sbufTail _ i).valid = true at valid
  by_cases last : i = o.sbufTail
  · rw [last]
    exact List.mem_append_right _ List.mem_cons_self
  · rw [setAt_of_ne last] at valid
    exact List.mem_append_left _ (only i valid)

theorem RingOnly.popStore (only : o.RingOnly) (waiting : o.sbufCount ≠ 0) (tick : Nat) : (o.popStore tick).RingOnly := by
  obtain ⟨rest, count⟩ := Nat.exists_eq_succ_of_ne_zero waiting
  intro i valid
  change i ∈ window (o.sbufHead + 1) (o.sbufCount - 1)
  change (setAt o.sbuf o.sbufHead _ i).valid = true at valid
  by_cases first : i = o.sbufHead
  · rw [first, setAt_self] at valid
    cases valid
  · rw [setAt_of_ne first] at valid
    have member := only i valid
    rw [count, window_succ] at member
    rw [count, Nat.succ_sub_one]
    exact (List.mem_cons.mp member).resolve_left first

end OOOState

/-- The ring holds exactly the committed cacheable stores that have not been drained. -/
structure StoresKept {σ : Type} (o : OOOState) (log : List (Event σ)) : Prop where
  buffered : o.Buffered
  only : o.RingOnly
  order : (drains log ++ o.buffered).map StoreBufEntry.store = (commits log).filterMap ROBEntry.cacheableStore

section Steps

variable {σ β : Type} {vm : VMem σ} {cfg : OooConfig β} {e e' : Engine σ β} {o o' : OOOState} {log log' : List (Event σ)}

theorem StoresKept.same (kept : StoresKept o log)
    (stores : o'.sbuf = o.sbuf ∧ o'.sbufHead = o.sbufHead ∧ o'.sbufTail = o.sbufTail ∧ o'.sbufCount = o.sbufCount)
    (drained : drains log' = drains log) (committed : commits log' = commits log) : StoresKept o' log' := by
  refine ⟨kept.buffered.same stores, ?_, ?_⟩ <;> obtain ⟨sbuf, head, _, count⟩ := stores
  · unfold OOOState.RingOnly
    rw [sbuf, head, count]
    exact kept.only
  · rw [drained, committed, OOOState.buffered_congr sbuf head count]
    exact kept.order

theorem Engine.Commits.storesKept (step : Commits vm e e') (live : e.ooo.robCount ≠ 0) (ok : e.ooo.Ok)
    (room : (e.ooo.rob e.ooo.robHead).ir.itype = .store → inDram (e.ooo.rob e.ooo.robHead).ir.memAddr = true →
      e.ooo.sbufCount < storeBufSize) (kept : StoresKept e.ooo e.log) : StoresKept e'.ooo e'.log := by
  obtain ⟨extra, log, quiet⟩ := step.log
  have drained : drains e'.log = drains e.log := by
    rw [log, drains_quiet]
    rintro event member entry rfl
    rcases List.mem_cons.mp member with commit | other
    · cases commit
    · obtain ⟨_, mismatch⟩ := quiet _ other
      cases mismatch
  have committed : commits e'.log = commits e.log ++ [e.ooo.rob e.ooo.robHead] := by
    rw [log, List.append_cons, commits_quiet, commits_append]
    · rfl
    · rintro event member entry value rfl
      obtain ⟨_, mismatch⟩ := quiet _ member
      cases mismatch
  have stores := e.ooo.afterCommit_stores
  by_cases store : (e.ooo.rob e.ooo.robHead).ir.itype = .store ∧ inDram (e.ooo.rob e.ooo.robHead).ir.memAddr = true
  · simp only [if_pos store] at stores
    have space := room store.1 store.2
    have narrow := (ok.decoded _ (ok.inv.renamed.head_valid live)).1.width
    have pushed : StoresKept (e.ooo.pushStore (e.ooo.rob e.ooo.robHead)) e'.log := by
      refine ⟨kept.buffered.pushStore space store.2 narrow, kept.only.pushStore kept.buffered _, ?_⟩
      rw [drained, committed, OOOState.buffered_pushStore kept.buffered space, ← List.append_assoc, List.map_append,
        kept.order, List.filterMap_append]
      simp [ROBEntry.cacheableStore, store, StoreBufEntry.store]
    rw [step.ooo]
    exact pushed.same stores rfl rfl
  · simp only [if_neg store] at stores
    rw [step.ooo]
    have after : StoresKept e.ooo.afterCommit e.log := kept.same stores rfl rfl
    refine ⟨after.buffered, after.only, ?_⟩
    rw [drained, after.order, committed, List.filterMap_append]
    simp [ROBEntry.cacheableStore, store]

theorem Engine.BackStep.storesKept (step : e.BackStep vm cfg e') (ok : e.ooo.Ok) (kept : StoresKept e.ooo e.log) :
    StoresKept e'.ooo e'.log := by
  cases step with
  | note quiet =>
      refine kept.same ⟨rfl, rfl, rfl, rfl⟩ (drains_quiet _ ?_) (commits_quiet _ ?_)
      · rintro event member entry rfl
        obtain ⟨_, _, line⟩ := quiet _ member
        cases line
      · rintro event member entry value rfl
        obtain ⟨_, _, line⟩ := quiet _ member
        cases line
  | drain waiting written =>
      refine ⟨kept.buffered.popStore waiting _, kept.only.popStore waiting _, ?_⟩
      have order := kept.order
      rw [OOOState.buffered_popStore kept.buffered waiting] at order
      rw [Engine.emit, drains_append, commits_quiet _ (by simp), List.append_assoc, ← order]
      rfl
  | commit live ready ordered sound room stored checked =>
      exact (Engine.commits_of_checked stored checked).storesKept live ok room kept
  | exec bpred fault unit live run completes faulted resolved => exact kept.same completes.stores rfl rfl
  | redirect live run completes control wrong target =>
      have flushes := (Engine.redirect_flushes ok live run completes).2
      exact ((kept.same completes.stores rfl rfl).same flushes.stores rfl rfl).same ⟨rfl, rfl, rfl, rfl⟩ rfl rfl
  | storeDone live computed store completes => exact kept.same completes.stores rfl rfl
  | loadFault addressed outside completes => exact kept.same completes.stores rfl rfl
  | fill addressed device mapped read completes =>
      exact kept.same completes.stores (drains_quiet _ (by simp)) (commits_quiet _ (by simp))
  | _ => exact kept.same ⟨rfl, rfl, rfl, rfl⟩ rfl rfl

theorem Engine.FrontStep.storesKept (step : e.FrontStep vm cfg e') (kept : StoresKept e.ooo e.log) :
    StoresKept e'.ooo e'.log := by
  cases step with
  | rename valid inOrder alone room names renames =>
      refine kept.same renames.sbuf (drains_quiet _ ?_) (commits_quiet _ ?_)
      · split <;> simp
      · split <;> simp
  | _ => exact kept.same ⟨rfl, rfl, rfl, rfl⟩ rfl rfl

theorem oooInit_storesKept (cpu : CPUState) : StoresKept (oooInit cpu) ([] : List (Event σ)) :=
  ⟨⟨Nat.zero_le _, rfl, fun _ absurdity => nomatch absurdity⟩, fun _ valid => (nomatch valid), rfl⟩

/-- Ring, bound and order of the store buffer of one hart. -/
structure StoresInOrder (o : OOOState) (log : List (Event σ)) : Prop where
  ring : ∀ i, (o.sbuf i).valid = true ↔ i ∈ window o.sbufHead o.sbufCount
  bounded : o.sbufCount ≤ storeBufSize
  order : (drains log ++ o.buffered).map StoreBufEntry.store = (commits log).filterMap ROBEntry.cacheableStore

theorem StoresKept.inOrder (kept : StoresKept o log) : StoresInOrder o log where
  ring := by
    intro i
    refine ⟨kept.only i, fun member => ?_⟩
    exact (kept.buffered.entries _ (List.mem_map_of_mem member)).1
  bounded := kept.buffered.bounded
  order := kept.order

end Steps

section Runs

variable {σ β : Type} (vm : VMem σ) (cfg : OooConfig β)

/-- In every state of every run of a hart, alone or beside another one under any schedule, the store buffer is a ring
and no committed cacheable store is lost, duplicated or reordered on its way to memory. -/
theorem stores_in_order :
    (∀ (cpu : CPUState) (world : World σ) (bpred : β) (k : Nat) (e : Engine σ β),
      Engine.run vm cfg k (Engine.init cfg cpu world bpred) = some e → StoresInOrder e.ooo e.log) ∧
    ∀ (arch : Fin 2 → CoreArch) (world : World σ) (bpred : Fin 2 → β) (schedule : List (Fin 2)) (m : OooDual σ β),
      OooDual.run vm cfg schedule (OooDual.init cfg arch world bpred) = some m →
        ∀ h, StoresInOrder (m.core h).ooo (m.core h).log := by
  constructor
  · intro cpu world bpred k e done
    have reached := Engine.run_keeps (P := fun e => StoresKept e.ooo e.log)
      (fun _ _ ok kept step => step.storesKept ok kept) (fun _ _ _ kept step => step.storesKept kept)
      (oooInit_ok cpu) (oooInit_tidy cpu) (oooInit_storesKept cpu) done
    exact reached.2.2.inOrder
  · intro arch world bpred schedule m done h
    have reached := OooDual.run_keeps (P := StoresKept) (m := OooDual.init cfg arch world bpred)
      (fun _ _ ok kept step => step.storesKept ok kept) (fun _ _ _ kept step => step.storesKept kept)
      (fun h => ⟨oooInit_ok (arch h).cpu, oooInit_tidy (arch h).cpu, oooInit_storesKept (arch h).cpu⟩) done h
    exact reached.2.2.inOrder

end Runs

/-- `auipc x5, 0` and `sw x5, 16(x5)`, on one core and on two: the store is committed and still buffered. -/
theorem stores_in_order_boot :
    (∃ e, bootRun [0x00000297, 0x0052a823] 7 = some e ∧ e.ooo.sbufCount = 1 ∧ StoresInOrder e.ooo e.log) ∧
    ∃ m, OooDual.bootRun [0x00000297, 0x0052a823] [0, 1, 0, 0, 0, 0, 0, 0] = some m ∧
      (m.core 0).ooo.sbufCount = 1 ∧ StoresInOrder (m.core 0).ooo (m.core 0).log := by
  constructor
  · have reached : (bootRun [0x00000297, 0x0052a823] 7).any (fun e => decide (e.ooo.sbufCount = 1)) = true := by
      decide +kernel
    obtain ⟨e, done, one⟩ := (Option.any_eq_true _ _).mp reached
    exact ⟨e, done, of_decide_eq_true one, (stores_in_order _ _).1 _ _ _ 7 e done⟩
  · have reached : (OooDual.bootRun [0x00000297, 0x0052a823] [0, 1, 0, 0, 0, 0, 0, 0]).any
        (fun m => decide ((m.core 0).ooo.sbufCount = 1)) = true := by
      decide +kernel
    obtain ⟨m, done, one⟩ := (Option.any_eq_true _ _).mp reached
    exact ⟨m, done, of_decide_eq_true one, (stores_in_order _ _).2 _ _ _ _ m done 0⟩

end Sustemu
