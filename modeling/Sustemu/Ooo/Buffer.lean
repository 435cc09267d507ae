import Sustemu.Ooo.Path
import Sustemu.Lib.Forward

/-!
# Pending stores

Stores wait in the reorder buffer and then in the store buffer before they
reach memory. `Buffered` describes the store buffer and `Cleared` what the issue
scan guarantees: a load in an LSU slot has no older store that is not ready.
-/

set_option autoImplicit false

namespace Sustemu

open Lib

def StoreBufEntry.write (entry : StoreBufEntry) : Write := ⟨entry.addr.toNat, entry.width, entry.data⟩

def ROBEntry.write (entry : ROBEntry) : Write := ⟨entry.ir.memAddr.toNat, entry.ir.memWidth, entry.storeData⟩

/-- The opcode by which the engine recognises a store. -/
def ROBEntry.isStore (entry : ROBEntry) : Bool := opcode7Of entry.ir.raw == 0x23

namespace OOOState

variable {o o' : OOOState}

/-- The store buffer from head to tail. -/
def buffered (o : OOOState) : List StoreBufEntry := (window o.sbufHead o.sbufCount).map o.sbuf

/-- The stores of the reorder buffer older than slot `i`, oldest first. -/
def olderStores (o : OOOState) (i : RobIdx) : List ROBEntry := ((o.olderSlots i).map o.rob).filter ROBEntry.isStore

/-! ## The store buffer -/

structure Buffered (o : OOOState) : Prop where
  bounded : o.sbufCount ≤ 16
  tail : o.sbufTail = o.sbufHead + Fin.ofNat 16 o.sbufCount
  entries : ∀ entry ∈ o.buffered, entry.valid = true ∧ inDram entry.addr = true ∧ entry.width ≤ 8

theorem buffered_congr (sbuf : o'.sbuf = o.sbuf) (head : o'.sbufHead = o.sbufHead) (count : o'.sbufCount = o.sbufCount) :
    o'.buffered = o.buffered := by
  unfold buffered
  rw [sbuf, head, count]

theorem Buffered.same (ok : o.Buffered)
    (stores : o'.sbuf = o.sbuf ∧ o'.sbufHead = o.sbufHead ∧ o'.sbufTail = o.sbufTail ∧ o'.sbufCount = o.sbufCount) :
    o'.Buffered := by
  obtain ⟨sbuf, head, tail, count⟩ := stores
  refine ⟨?_, ?_, ?_⟩
  · rw [count]
    exact ok.bounded
  · rw [tail, head, count]
    exact ok.tail
  · rw [buffered_congr sbuf head count]
    exact ok.entries

theorem buffered_pushStore (ok : o.Buffered) (room : o.sbufCount < storeBufSize) (entry : ROBEntry) :
    (o.pushStore entry).buffered = o.buffered ++
      [⟨entry.ir.memAddr, entry.storeData, entry.ir.memWidth, true, entry.seq⟩] := by
  have fresh : o.sbufTail ∉ window o.sbufHead o.sbufCount := by
    rw [ok.tail]
    exact last_not_mem_window o.sbufHead room
  unfold buffered pushStore
  simp only
  rw [window_succ_last, List.map_append, map_update_window_of_not_mem _ _ _ _ fresh, List.map_singleton, ← ok.tail,
    setAt_self]

theorem Buffered.pushStore (ok : o.Buffered) (room : o.sbufCount < storeBufSize) {entry : ROBEntry}
    (cached : inDram entry.ir.memAddr = true) (narrow : entry.ir.memWidth ≤ 8) : (o.pushStore entry).Buffered := by
  refine ⟨room, ?_, ?_⟩
  · change o.sbufTail + 1 = o.sbufHead + Fin.ofNat 16 (o.sbufCount + 1)
    rw [ok.tail, add_ofNat_succ]
  · rw [buffered_pushStore ok room]
    intro store member
    rcases List.mem_append.mp member with old | new
    · exact ok.entries store old
    · rw [List.mem_singleton.mp new]
      exact ⟨rfl, cached, narrow⟩

theorem buffered_popStore (ok : o.Buffered) (waiting : o.sbufCount ≠ 0) (tick : Nat) :
    o.buffered = o.sbuf o.sbufHead :: (o.popStore tick).buffered := by
  obtain ⟨rest, count⟩ := Nat.exists_eq_succ_of_ne_zero waiting
  have bounded := ok.bounded
  have gone : o.sbufHead ∉ window (o.sbufHead + 1) rest := head_not_mem_window_tail o.sbufHead (by omega)
  unfold buffered popStore
  simp only [count, Nat.succ_sub_one]
  rw [map_update_window_of_not_mem _ _ _ _ gone, window_succ, List.map_cons]

theorem Buffered.popStore (ok : o.Buffered) (waiting : o.sbufCount ≠ 0) (tick : Nat) : (o.popStore tick).Buffered := by
  obtain ⟨rest, count⟩ := Nat.exists_eq_succ_of_ne_zero waiting
  have bounded := ok.bounded
  refine ⟨?_, ?_, ?_⟩
  · change o.sbufCount - 1 ≤ 16
    omega
  · change o.sbufTail = o.sbufHead + 1 + Fin.ofNat 16 (o.sbufCount - 1)
    rw [ok.tail, count, Nat.succ_sub_one, succ_add_ofNat]
  · intro entry member
    apply ok.entries
    rw [buffered_popStore ok waiting tick]
    exact List.mem_cons_of_mem _ member

/-- The store buffer after a commit. -/
theorem afterCommit_stores (o : OOOState) :
    let entry := o.rob o.robHead
    let pushed := if entry.ir.itype = .store ∧ inDram entry.ir.memAddr = true then o.pushStore entry else o
    o.afterCommit.sbuf = pushed.sbuf ∧ o.afterCommit.sbufHead = pushed.sbufHead ∧
      o.afterCommit.sbufTail = pushed.sbufTail ∧ o.afterCommit.sbufCount = pushed.sbufCount := by
  unfold afterCommit commitRename
  simp only
  cases (o.rob o.robHead).pending with
  | none => exact ⟨rfl, rfl, rfl, rfl⟩
  | some r => exact ⟨rfl, rfl, rfl, rfl⟩

theorem buffered_afterCommit (o : OOOState) : o.afterCommit.buffered =
    (if (o.rob o.robHead).ir.itype = .store ∧ inDram (o.rob o.robHead).ir.memAddr = true
      then o.pushStore (o.rob o.robHead) else o).buffered := by
  obtain ⟨sbuf, head, _, count⟩ := o.afterCommit_stores
  exact buffered_congr sbuf head count

/-! ## Loads in flight -/

/-- A load in an LSU slot has no older store that is not ready. -/
def Cleared (o : OOOState) : Prop :=
  ∀ s, o.Live .lsu s → opcode7Of (o.slotEntry .lsu s).ir.raw = 0x03 →
    ∀ j, (o.rob j).valid = true → o.pos j < o.pos (o.latch .lsu s).robIdx → (o.rob j).isStore = true →
      (o.rob j).ready = true

/-- What keeps loads clear: no load gets new older entries, and none of those becomes unready. -/
theorem Cleared.keep (cleared : o.Cleared)
    (slots : ∀ s, o'.Live .lsu s → o.Live .lsu s ∧ (o'.latch .lsu s).robIdx = (o.latch .lsu s).robIdx ∧
      (o'.slotEntry .lsu s).ir.raw = (o.slotEntry .lsu s).ir.raw)
    (older : ∀ s, o'.Live .lsu s → ∀ j, (o'.rob j).valid = true → o'.pos j < o'.pos (o.latch .lsu s).robIdx →
      (o.rob j).valid = true ∧ o.pos j < o.pos (o.latch .lsu s).robIdx ∧ (o'.rob j).ir.raw = (o.rob j).ir.raw ∧
        ((o.rob j).ready = true → (o'.rob j).ready = true)) : o'.Cleared := by
  intro s live load j valid before store
  obtain ⟨was, index, raw⟩ := slots s live
  rw [index] at before
  rw [raw] at load
  obtain ⟨validJ, beforeJ, rawJ, keeps⟩ := older s live j valid before
  apply keeps
  apply cleared s was load j validJ beforeJ
  unfold ROBEntry.isStore at store ⊢
  rwa [← rawJ]

theorem Cleared.same (cleared : o.Cleared) (rob : o'.rob = o.rob) (head : o'.robHead = o.robHead)
    (slots : ∀ s, o'.Live .lsu s → o.Live .lsu s ∧ (o'.latch .lsu s).robIdx = (o.latch .lsu s).robIdx) : o'.Cleared := by
  apply cleared.keep
  · intro s live
    obtain ⟨was, index⟩ := slots s live
    unfold slotEntry
    exact ⟨was, index, by rw [rob, index]⟩
  · intro s _ j valid before
    unfold pos at before ⊢
    rw [rob] at valid ⊢
    rw [head] at before
    exact ⟨valid, before, rfl, id⟩

/-- Rewriting a valid entry without making it unready. -/
theorem Cleared.update (cleared : o.Cleared) {i : RobIdx} {entry : ROBEntry} (valid : (o.rob i).valid = true)
    (rob : o'.rob = setAt o.rob i entry) (head : o'.robHead = o.robHead)
    (raw : entry.ir.raw = (o.rob i).ir.raw) (ready : (o.rob i).ready = true → entry.ready = true)
    (slots : ∀ s, o'.Live .lsu s → o.Live .lsu s ∧ (o'.latch .lsu s).robIdx = (o.latch .lsu s).robIdx) : o'.Cleared := by
  have raws : ∀ j, (o'.rob j).ir.raw = (o.rob j).ir.raw := by
    intro j
    rw [rob]
    by_cases here : j = i
    · rw [here, setAt_self, raw]
    · rw [setAt_of_ne here]
  apply cleared.keep
  · intro s live
    obtain ⟨was, index⟩ := slots s live
    unfold slotEntry
    exact ⟨was, index, by rw [index, raws]⟩
  · intro s _ j validJ before
    unfold pos at before ⊢
    rw [head] at before
    refine ⟨?_, before, raws j, ?_⟩
    · by_cases here : j = i
      · rw [here]
        exact valid
      · rwa [rob, setAt_of_ne here] at validJ
    · rw [rob]
      by_cases here : j = i
      · rw [here, setAt_self]
        exact ready
      · rw [setAt_of_ne here]
        exact id

theorem slots_dropLatch {eu : EU} {s t : Fin 2} (live : (o.dropLatch eu s).Live .lsu t) :
    o.Live .lsu t ∧ ((o.dropLatch eu s).latch .lsu t).robIdx = (o.latch .lsu t).robIdx := by
  obtain ⟨valid, kept⟩ := live
  rw [latch_dropLatch] at valid kept ⊢
  split at valid
  · cases valid
  · next other =>
      rw [if_neg other] at kept ⊢
      exact ⟨⟨valid, kept⟩, rfl⟩

theorem Completes.slots {eu : EU} {s : Fin 2} {entry : ROBEntry} {result : Word}
    (completes : o.Completes eu s entry result o') (t : Fin 2) (live : o'.Live .lsu t) :
    o.Live .lsu t ∧ (o'.latch .lsu t).robIdx = (o.latch .lsu t).robIdx := by
  obtain ⟨valid, kept⟩ := live
  rw [completes.latch] at valid kept ⊢
  exact slots_dropLatch ⟨valid, kept⟩

/-- Changing a slot's bookkeeping keeps the instruction it holds. -/
theorem slots_setLatch {eu : EU} {s : Fin 2} {l : OOOLatch} (index : l.robIdx = (o.latch eu s).robIdx)
    (valid : l.valid = (o.latch eu s).valid) (flushed : l.flushed = (o.latch eu s).flushed) (t : Fin 2)
    (live : (o.setLatch eu s l).Live .lsu t) :
    o.Live .lsu t ∧ ((o.setLatch eu s l).latch .lsu t).robIdx = (o.latch .lsu t).robIdx := by
  obtain ⟨validT, kept⟩ := live
  rw [latch_setLatch] at validT kept ⊢
  by_cases here : EU.lsu = eu ∧ t = s
  · rw [if_pos here] at validT kept ⊢
    obtain ⟨rfl, rfl⟩ := here
    exact ⟨⟨valid ▸ validT, flushed ▸ kept⟩, index⟩
  · rw [if_neg here] at validT kept ⊢
    exact ⟨⟨validT, kept⟩, rfl⟩

theorem Cleared.completes (cleared : o.Cleared) (inv : o.Inv) {eu : EU} {s : Fin 2} {entry : ROBEntry} {result : Word}
    (completes : o.Completes eu s entry result o') (live : o.Live eu s)
    (raw : entry.ir.raw = (o.slotEntry eu s).ir.raw) (ready : entry.ready = true) : o'.Cleared :=
  cleared.update (inv.live_entry live).1 completes.rob completes.head raw (fun _ => ready) completes.slots

theorem Cleared.flushes (cleared : o.Cleared) {b : RobIdx} (flushes : o.Flushes b o') : o'.Cleared := by
  have head : o'.robHead = o.robHead := flushes.head
  have kept : ∀ s, o'.Live .lsu s → o'.latch .lsu s = o.latch .lsu s ∧ o.pos (o.latch .lsu s).robIdx ≤ o.pos b ∧
      o.Live .lsu s := by
    intro s live
    obtain ⟨valid, unflushed, _⟩ := flushes.latch .lsu s live.valid
    obtain ⟨same, older⟩ := unflushed live.kept
    exact ⟨same, older, valid, by rw [← same]; exact live.kept⟩
  apply cleared.keep
  · intro s live
    obtain ⟨same, older, was⟩ := kept s live
    unfold slotEntry
    exact ⟨was, by rw [same], by rw [same, flushes.older _ older]⟩
  · intro s live j valid before
    obtain ⟨_, older, _⟩ := kept s live
    unfold pos at before
    rw [head] at before
    have same := flushes.older j (Nat.le_trans (Nat.le_of_lt before) older)
    rw [same] at valid ⊢
    exact ⟨valid, before, rfl, id⟩

theorem Cleared.afterCommit (cleared : o.Cleared) (inv : o.Inv) (ready : (o.rob o.robHead).ready = true) :
    o.afterCommit.Cleared := by
  have frame := o.afterCommit_frame
  have others : ∀ j, j ≠ o.robHead → o.afterCommit.rob j = o.rob j := by
    intro j other
    rw [frame.rob, setAt_of_ne other]
  have gone : (o.afterCommit.rob o.robHead).valid = false := by
    rw [frame.rob, setAt_self]
  have closer : ∀ j, j ≠ o.robHead → o.pos j = o.afterCommit.pos j + 1 := by
    intro j other
    unfold pos
    rw [frame.head]
    exact age_succ_head other
  have was : ∀ s, o.afterCommit.Live .lsu s → o.Live .lsu s := by
    intro s live
    exact ⟨by rw [← frame.latch]; exact live.valid, by rw [← frame.latch]; exact live.kept⟩
  apply cleared.keep
  · intro s liveS
    rw [show o.afterCommit.latch = o.latch from frame.latch]
    refine ⟨was s liveS, rfl, ?_⟩
    unfold slotEntry
    rw [frame.latch, frame.rob]
    by_cases first : (o.latch .lsu s).robIdx = o.robHead
    · rw [first, setAt_self]
    · rw [setAt_of_ne first]
  · intro s liveS j valid before
    have other : j ≠ o.robHead := by
      rintro rfl
      rw [gone] at valid
      cases valid
    rw [others j other] at valid ⊢
    refine ⟨valid, ?_, rfl, id⟩
    have waits : (o.latch .lsu s).robIdx ≠ o.robHead := by
      intro first
      have waiting : (o.rob (o.latch .lsu s).robIdx).ready = false := (inv.live_entry (was s liveS)).2
      rw [first, ready] at waiting
      cases waiting
    rw [closer j other, closer _ waits]
    omega

/-- The issue scan has looked at every older entry. -/
theorem ready_of_not_loadBlocked {i j : RobIdx} (clear : o.loadBlocked i = false) (valid : (o.rob j).valid = true)
    (older : o.pos j < o.pos i) (store : (o.rob j).isStore = true) : (o.rob j).ready = true := by
  have scanned : j ∈ o.olderSlots i := (mem_window_iff (age_lt o.robHead i).le).mpr older
  have passed := List.any_eq_false.mp clear j scanned
  unfold ROBEntry.isStore at store
  simp only [valid, store, Bool.and_true, Bool.true_and, Bool.or_eq_true, not_or] at passed
  simpa using passed.1

theorem Cleared.issue (cleared : o.Cleared) {eu : EU} {s : Fin 2} {k : RsIdx} (chosen : o.selectIssue eu = some k) :
    (o.latchFromRs eu s k).Cleared := by
  have same : (o.latchFromRs eu s k).rob = o.rob := rfl
  have head : (o.latchFromRs eu s k).robHead = o.robHead := rfl
  intro t live load j valid older store
  by_cases here : EU.lsu = eu ∧ t = s
  · obtain ⟨rfl, rfl⟩ := here
    have latched : ((o.latchFromRs .lsu t k).latch .lsu t).robIdx = (o.rs k).robIdx := by
      simp [latchFromRs, rsMaskClear, setLatch]
    unfold slotEntry at load
    rw [latched] at load older
    have allowed := (selectIssue_some chosen).1
    unfold issuable at allowed
    have clear : o.loadBlocked (o.rs k).robIdx = false := by
      rw [same] at load
      simpa [load] using (Bool.and_eq_true_iff.mp allowed).2
    exact ready_of_not_loadBlocked clear valid older store
  · have unchanged : (o.latchFromRs eu s k).latch .lsu t = o.latch .lsu t := by
      change (o.setLatch eu s _).latch .lsu t = _
      rw [latch_setLatch, if_neg here]
    have was : o.Live .lsu t := ⟨by rw [← unchanged]; exact live.valid, by rw [← unchanged]; exact live.kept⟩
    unfold slotEntry at load
    rw [unchanged] at load older
    exact cleared t was load j valid older store

theorem Cleared.rename (cleared : o.Cleared) (inv : o.Inv) {ir : IRInst} {seq : Nat} {slot : RsIdx}
    (renames : o.Renames ir seq slot o') (room : o.robCount < 32) : o'.Cleared := by
  have head : o'.robHead = o.robHead := renames.head
  have last : o.pos o.robTail = o.robCount := by
    unfold pos
    rw [inv.renamed.tail]
    exact age_add o.robHead room
  have was : ∀ s, o'.Live .lsu s → o.Live .lsu s := by
    intro s live
    exact ⟨by rw [← renames.latch]; exact live.valid, by rw [← renames.latch]; exact live.kept⟩
  have others : ∀ j, o.pos j < o.robCount → o'.rob j = o.rob j := by
    intro j inside
    rw [renames.rob, setAt_of_ne]
    rintro rfl
    omega
  have inside : ∀ s, o'.Live .lsu s → o.pos (o.latch .lsu s).robIdx < o.robCount := fun s live =>
    (inv.renamed.valid _).mp (inv.live_entry (was s live)).1
  apply cleared.keep
  · intro s live
    unfold slotEntry
    rw [renames.latch]
    exact ⟨was s live, rfl, by rw [others _ (inside s live)]⟩
  · intro s live j valid older
    unfold pos at older
    rw [head] at older
    have before : o.pos j < o.robCount := Nat.lt_trans older (inside s live)
    rw [others j before] at valid ⊢
    exact ⟨valid, older, rfl, id⟩

end OOOState

namespace Engine

variable {σ β : Type} {vm : VMem σ} {cfg : OooConfig β} {e e' : Engine σ β}

theorem BackStep.buffered (step : e.BackStep vm cfg e') (ok : e.ooo.Ok) (buffered : e.ooo.Buffered) :
    e'.ooo.Buffered := by
  cases step with
  | note quiet => exact buffered
  | timer mshr tick lines => exact buffered.same ⟨rfl, rfl, rfl, rfl⟩
  | drain waiting written => exact buffered.popStore waiting _
  | commit live ready ordered sound room stored checked =>
      rw [(commits_of_checked stored checked).ooo]
      refine OOOState.Buffered.same ?_ e.ooo.afterCommit_stores
      split
      · next store =>
          have valid := ok.inv.renamed.head_valid live
          exact buffered.pushStore (room store.1 store.2) store.2 (ok.decoded _ valid).1.width
      · exact buffered
  | exec bpred fault unit live run completes faulted resolved => exact buffered.same completes.stores
  | redirect live run completes control wrong target =>
      have flushes := (redirect_flushes ok live run completes).2
      exact ((buffered.same completes.stores).same flushes.stores).same ⟨rfl, rfl, rfl, rfl⟩
  | count live => exact buffered.same ⟨rfl, rfl, rfl, rfl⟩
  | discard mshr valid flushed lines filled => exact buffered.same ⟨rfl, rfl, rfl, rfl⟩
  | address live first executor => exact buffered.same ⟨rfl, rfl, rfl, rfl⟩
  | storeDone live computed store completes => exact buffered.same completes.stores
  | delay addressed absent => exact buffered.same ⟨rfl, rfl, rfl, rfl⟩
  | probe => exact buffered
  | miss addressed cached missed line lines => exact buffered.same ⟨rfl, rfl, rfl, rfl⟩
  | loadFault addressed outside completes => exact buffered.same completes.stores
  | fill addressed device mapped read completes => exact buffered.same completes.stores
  | issue empty chosen => exact buffered.same ⟨rfl, rfl, rfl, rfl⟩

theorem FrontStep.buffered (step : e.FrontStep vm cfg e') (buffered : e.ooo.Buffered) : e'.ooo.Buffered := by
  cases step with
  | note => exact buffered
  | rename valid inOrder alone room names renames => exact buffered.same renames.sbuf
  | compact consumed left => exact buffered.same ⟨rfl, rfl, rfl, rfl⟩
  | decode group consumed => exact buffered.same ⟨rfl, rfl, rfl, rfl⟩
  | fetch inOrder mapped read answer => exact buffered.same ⟨rfl, rfl, rfl, rfl⟩
  | skip unmapped => exact buffered.same ⟨rfl, rfl, rfl, rfl⟩
  | tick => exact buffered

theorem BackStep.cleared (step : e.BackStep vm cfg e') (ok : e.ooo.Ok) (cleared : e.ooo.Cleared) : e'.ooo.Cleared := by
  have inv := ok.inv
  cases step with
  | note quiet => exact cleared
  | timer mshr tick lines => exact cleared.same rfl rfl fun _ live => ⟨⟨live.valid, live.kept⟩, rfl⟩
  | drain waiting written => exact cleared.same rfl rfl fun _ live => ⟨⟨live.valid, live.kept⟩, rfl⟩
  | commit live ready ordered sound room stored checked =>
      rw [(commits_of_checked stored checked).ooo]
      exact cleared.afterCommit inv ready
  | exec bpred fault unit live run completes faulted resolved =>
      exact cleared.completes inv completes live (executed_sameInst inv live run).1.raw rfl
  | redirect live run completes control wrong target =>
      have done := cleared.completes inv completes live (executed_sameInst inv live run).1.raw rfl
      have flushed := done.flushes (redirect_flushes ok live run completes).2
      exact flushed.same rfl rfl fun _ live => ⟨⟨live.valid, live.kept⟩, rfl⟩
  | count live => exact cleared.same rfl rfl fun _ live => ⟨⟨live.valid, live.kept⟩, rfl⟩
  | discard mshr valid flushed lines filled =>
      have swapped : ({ e.ooo with mshr := mshr } : OOOState).Cleared :=
        cleared.same rfl rfl fun _ live => ⟨⟨live.valid, live.kept⟩, rfl⟩
      exact swapped.same rfl rfl fun _ live => OOOState.slots_dropLatch live
  | address live first executor =>
      rename_i s run
      have same := (OOOState.operands_sameInst e.ooo .lsu s).trans
        (pure_sameInst (operands e.ooo (e.ooo.latch .lsu s)) executor).1
      exact cleared.update (inv.live_entry live).1 rfl rfl same.raw id fun _ live => ⟨⟨live.valid, live.kept⟩, rfl⟩
  | storeDone live computed store completes => exact cleared.completes inv completes live rfl rfl
  | delay addressed absent => exact cleared.same rfl rfl (OOOState.slots_setLatch rfl rfl rfl)
  | probe => exact cleared
  | miss addressed cached missed line lines =>
      rename_i s m mshr w
      have swapped : ({ e.ooo with mshr := mshr } : OOOState).Cleared :=
        cleared.same rfl rfl fun _ live => ⟨⟨live.valid, live.kept⟩, rfl⟩
      exact swapped.same rfl rfl (OOOState.slots_setLatch rfl rfl rfl)
  | loadFault addressed outside completes => exact cleared.completes inv completes addressed.live rfl rfl
  | fill addressed device mapped read completes => exact cleared.completes inv completes addressed.live rfl rfl
  | issue empty chosen => exact cleared.issue chosen

theorem FrontStep.cleared (step : e.FrontStep vm cfg e') (ok : e.ooo.Ok) (cleared : e.ooo.Cleared) :
    e'.ooo.Cleared := by
  cases step with
  | note => exact cleared
  | rename valid inOrder alone room names renames =>
      have renamed := cleared.rename ok.inv renames room
      exact renamed.same rfl rfl fun _ live => ⟨⟨live.valid, live.kept⟩, rfl⟩
  | compact consumed left => exact cleared.same rfl rfl fun _ live => ⟨⟨live.valid, live.kept⟩, rfl⟩
  | decode group consumed => exact cleared.same rfl rfl fun _ live => ⟨⟨live.valid, live.kept⟩, rfl⟩
  | fetch inOrder mapped read answer => exact cleared.same rfl rfl fun _ live => ⟨⟨live.valid, live.kept⟩, rfl⟩
  | skip unmapped => exact cleared.same rfl rfl fun _ live => ⟨⟨live.valid, live.kept⟩, rfl⟩
  | tick => exact cleared

end Engine

end Sustemu
