import Sustemu.Ooo.Latency
import Sustemu.Ooo.Masks
import Sustemu.Ooo.Phases

/-!
# The oldest instruction

Nothing removes the oldest instruction from the reorder buffer before it
commits, its operands are there, and it is the first to be issued. So while no
instruction commits it can only move on: from its station to a slot, and from
there to being ready.
-/

set_option autoImplicit false

namespace Sustemu

open Lib Relation

namespace OOOState

variable {o o' o'' : OOOState}

theorem occupant_slot_congr {eu : EU} {s : Fin 2} (latch : o'.latch eu s = o.latch eu s) :
    o'.occupant (.slot eu s) = o.occupant (.slot eu s) := by
  simp only [occupant, latch]

/-- Without a commit, the oldest instruction gets no farther from its own. -/
structure Nears (o o' : OOOState) : Prop where
  head : o'.robHead = o.robHead
  live : o.robCount ≠ 0 → o'.robCount ≠ 0
  ready : o.robCount ≠ 0 → (o.rob o.robHead).ready = true → (o'.rob o.robHead).ready = true
  slot : o.robCount ≠ 0 → ∀ eu s, o.occupant (.slot eu s) = some o.robHead →
    (o'.rob o.robHead).ready = true ∨ o'.occupant (.slot eu s) = some o.robHead
  unit : o.robCount ≠ 0 → (o'.rob o.robHead).ir.raw = (o.rob o.robHead).ir.raw

namespace Nears

theorem of_same (rob : o'.rob = o.rob) (head : o'.robHead = o.robHead) (count : o'.robCount = o.robCount)
    (latch : ∀ eu s, o.occupant (.slot eu s) = some o.robHead → o'.occupant (.slot eu s) = some o.robHead) : o.Nears o' where
  head := head
  live := fun live => count ▸ live
  ready := fun _ ready => rob ▸ ready
  slot := fun _ eu s here => .inr (latch eu s here)
  unit := fun _ => by rw [rob]

theorem refl (o : OOOState) : o.Nears o := .of_same rfl rfl rfl fun _ _ here => here

theorem trans (first : o.Nears o') (second : o'.Nears o'') : o.Nears o'' where
  head := second.head.trans first.head
  live := fun live => second.live (first.live live)
  ready := fun live ready => by
    have later := second.ready (first.live live)
    rw [first.head] at later
    exact later (first.ready live ready)
  slot := fun live eu s here => by
    have later := second.slot (first.live live) eu s
    have stays := second.ready (first.live live)
    rw [first.head] at later stays
    rcases first.slot live eu s here with ready | here'
    · exact .inl (stays ready)
    · exact later here'
  unit := fun live => by
    have later := second.unit (first.live live)
    rw [first.head] at later
    exact later.trans (first.unit live)

/-- An entry is rewritten, and no slot changes hands. -/
theorem of_update {i : RobIdx} {entry : ROBEntry} (rob : o'.rob = setAt o.rob i entry)
    (head : o'.robHead = o.robHead) (count : o'.robCount = o.robCount)
    (ready : (o.rob i).ready = true → entry.ready = true) (raw : entry.ir.raw = (o.rob i).ir.raw)
    (latch : ∀ eu s, o.occupant (.slot eu s) = some o.robHead →
      (i = o.robHead ∧ entry.ready = true) ∨ o'.occupant (.slot eu s) = some o.robHead) : o.Nears o' where
  head := head
  live := fun live => count ▸ live
  ready := fun _ before => by
    rw [rob]
    by_cases here : o.robHead = i
    · rw [here, setAt_self]
      exact ready (here ▸ before)
    · rwa [setAt_of_ne here]
  slot := fun _ eu s here => by
    rcases latch eu s here with ⟨rfl, done⟩ | kept
    · left
      rw [rob, setAt_self]
      exact done
    · exact .inr kept
  unit := fun _ => by
    rw [rob]
    by_cases here : o.robHead = i
    · rw [here, setAt_self]
      exact raw
    · rw [setAt_of_ne here]

/-- An instruction completes: the oldest one, or another. -/
theorem completes {eu : EU} {s : Fin 2} {entry : ROBEntry} {result : Word} (completes : o.Completes eu s entry result o')
    (ready : entry.ready = true) (raw : entry.ir.raw = (o.slotEntry eu s).ir.raw) : o.Nears o' := by
  refine .of_update completes.rob completes.head completes.count (fun _ => ready) raw fun eu' t here => ?_
  by_cases same : eu' = eu ∧ t = s
  · obtain ⟨rfl, rfl⟩ := same
    exact .inl ⟨(slot_of_occupant here).2.2, ready⟩
  · right
    have latch : o'.latch eu' t = o.latch eu' t := by rw [completes.latch, latch_dropLatch, if_neg same]
    rwa [occupant_slot_congr latch]

/-- The head is not newer than the instruction that flushes. -/
theorem flushes {b : RobIdx} (flushes : o.Flushes b (o.flushAfter b)) : o.Nears (o.flushAfter b) := by
  obtain ⟨entry, live⟩ := flushes.head_entry
  rw [flushes.head] at entry
  refine ⟨flushes.head, fun _ => live, fun _ ready => by rwa [entry], fun _ eu s here => .inr ?_, fun _ => by rw [entry]⟩
  obtain ⟨valid, kept, index⟩ := slot_of_occupant here
  have frame := rollback_frame (o.robTail - (b + 1)).val o
  have oldest : (rollback (o.robTail - (b + 1)).val o).robNewerThan
      ((rollback (o.robTail - (b + 1)).val o).latch eu s).robIdx b = false := by
    unfold robNewerThan
    rw [frame.head, frame.latch, index, sub_self]
    exact decide_eq_false (Nat.not_lt_zero _)
  have latch : (o.flushAfter b).latch eu s = o.latch eu s := by
    unfold flushAfter squash
    dsimp only
    refine (if_neg fun hit => ?_).trans (by rw [frame.latch])
    exact Bool.false_ne_true (oldest.symm.trans (Bool.and_eq_true_iff.mp hit).2)
  rw [occupant_slot (by rw [latch]; exact valid) (by rw [latch]; exact kept), latch, index]

/-- A new instruction is not the oldest. -/
theorem renames {ir : IRInst} {seq : Nat} {slot : RsIdx} (renames : o.Renames ir seq slot o') (inv : o.Inv)
    (room : o.robCount < 32) : o.Nears o' := by
  have entry : o.robCount ≠ 0 → o'.rob o.robHead = o.rob o.robHead := fun live => by
    have same := renames.head_entry inv room live
    rwa [renames.head] at same
  refine ⟨renames.head, fun _ => ?_, fun live ready => by rwa [entry live], fun _ eu s here => .inr ?_,
    fun live => by rw [entry live]⟩
  · rw [renames.count]
    exact Nat.succ_ne_zero _
  · rwa [occupant_slot_congr (congrFun (congrFun renames.latch eu) s)]

end Nears

/-! ## Issue -/

/-- Filling an empty slot does not touch the others. -/
theorem nears_latchFromRs {eu : EU} {s : Fin 2} {k : RsIdx} (empty : (o.latch eu s).valid = false) :
    o.Nears (o.latchFromRs eu s k) := by
  refine .of_same rfl rfl rfl fun eu' t here => ?_
  obtain ⟨valid, kept, index⟩ := slot_of_occupant here
  have other : ¬(eu' = eu ∧ t = s) := by
    rintro ⟨rfl, rfl⟩
    exact Bool.false_ne_true (empty.symm.trans valid)
  have latch : (o.latchFromRs eu s k).latch eu' t = o.latch eu' t := by
    change (o.setLatch eu s _).latch eu' t = _
    rw [latch_setLatch, if_neg other]
  rwa [occupant_slot_congr latch]

theorem nears_issueSlot (o : OOOState) (eu : EU) (s : Fin 2) : o.Nears (issueSlot eu o s) := by
  unfold issueSlot
  split
  · exact .refl o
  · next empty =>
      split
      · exact .refl o
      · next k chosen => exact nears_latchFromRs (by simpa using empty)

/-- The operands of the oldest instruction are there. -/
theorem Inv.head_captured (inv : o.Inv) {source : Option Reg} {decoded value : Word} {ready : Bool} {tag : PReg}
    (captured : o.Captured o.rrat source decoded ready value tag) : ready = true := by
  unfold Captured at captured
  split at captured
  · exact captured.1
  · next a =>
      split at captured
      · exact captured.1
      · next nonzero =>
          obtain ⟨mapped, same, _⟩ := captured
          rw [same, mapped]
          exact inv.settled.committed a nonzero

/-- The oldest instruction may be issued. -/
theorem Inv.head_issuable (inv : o.Inv) {k : RsIdx} (waits : o.occupant (.station k) = some o.robHead) :
    o.issuable (o.rs k).euType k = true := by
  obtain ⟨valid, index⟩ := station_of_occupant waits
  have station := inv.placed.station k valid
  have before : o.mapAt (o.pos (o.rs k).robIdx) = o.rrat := by
    rw [index, pos, age_self]
    rfl
  have src1 := station.src1
  have src2 := station.src2
  rw [before] at src1 src2
  have blocked : o.loadBlocked (o.rs k).robIdx = false := by
    unfold loadBlocked olderSlots
    rw [index, sub_self]
    rfl
  unfold issuable
  rw [inv.placed.readyMask, valid, inv.head_captured src1, inv.head_captured src2, blocked]
  simp

/-- An empty slot of its unit goes to the oldest instruction. -/
theorem Inv.issueSlot_takes (inv : o.Inv) {k : RsIdx} {s : Fin 2} (waits : o.occupant (.station k) = some o.robHead)
    (empty : (o.latch (o.rs k).euType s).valid = false) :
    (issueSlot (o.rs k).euType o s).occupant (.slot (o.rs k).euType s) = some o.robHead := by
  have issuable := inv.head_issuable waits
  obtain ⟨valid, index⟩ := station_of_occupant waits
  unfold issueSlot
  rw [if_neg (by rw [empty]; exact Bool.false_ne_true)]
  cases chosen : o.selectIssue (o.rs k).euType with
  | none => exact absurd ((selectIssue_none chosen k).symm.trans issuable) Bool.false_ne_true
  | some j =>
      obtain ⟨taken, oldest⟩ := selectIssue_some chosen
      have first := oldest k issuable
      have self : o.pos (o.rs k).robIdx = 0 := by rw [index, pos, age_self]
      rw [self] at first
      have head : (o.rs j).robIdx = o.robHead := by
        have same : age o.robHead (o.rs j).robIdx = age o.robHead o.robHead := by
          rw [age_self]
          exact Nat.le_zero.mp first
        exact age_injective same
      have latch : (o.latchFromRs (o.rs k).euType s j).latch (o.rs k).euType s =
          { robIdx := (o.rs j).robIdx, physRd := (o.rs j).physRd, valid := true, cyclesRem := -1, mshrIdx := none,
            flushed := false, src1Val := (o.rs j).src1Val, src2Val := (o.rs j).src2Val } := by
        change (o.setLatch (o.rs k).euType s _).latch _ _ = _
        rw [latch_setLatch, if_pos ⟨rfl, rfl⟩]
      rw [occupant_slot (by rw [latch]) (by rw [latch]), latch, head]

/-- An occupied slot is not issued to. -/
theorem issueSlot_latch (o : OOOState) (eu : EU) (s : Fin 2) {eu' : EU} {t : Fin 2} (valid : (o.latch eu' t).valid = true) :
    (issueSlot eu o s).latch eu' t = o.latch eu' t := by
  unfold issueSlot
  split
  · rfl
  · next empty =>
      split
      · rfl
      · change (o.setLatch eu s _).latch eu' t = _
        rw [latch_setLatch, if_neg]
        rintro ⟨rfl, rfl⟩
        exact empty valid

/-- The slots in the order in which they are issued to. -/
def issueOrder : List (EU × Fin 2) := [(.int, 0), (.int, 1), (.mul, 0), (.lsu, 0), (.lsu, 1)]

def issueAll (slots : List (EU × Fin 2)) (o : OOOState) : OOOState := slots.foldl (fun o p => issueSlot p.1 o p.2) o

theorem mem_issueOrder {eu : EU} {s : Fin 2} (listed : s ∈ eu.slots) : (eu, s) ∈ issueOrder := by
  revert s
  cases eu <;> decide

theorem stageIs_eq (o : OOOState) : o.stageIs = issueAll issueOrder o := rfl

theorem issueAll_latch {slots : List (EU × Fin 2)} {eu : EU} {s : Fin 2} (valid : (o.latch eu s).valid = true) :
    (issueAll slots o).latch eu s = o.latch eu s := by
  induction slots generalizing o with
  | nil => rfl
  | cons p rest ih =>
      have first := o.issueSlot_latch p.1 p.2 valid
      exact (ih (first ▸ valid)).trans first

theorem issueAll_mshr (slots : List (EU × Fin 2)) (o : OOOState) : (issueAll slots o).mshr = o.mshr := by
  induction slots generalizing o with
  | nil => rfl
  | cons p rest ih =>
      have first : (issueSlot p.1 o p.2).mshr = o.mshr := by
        unfold issueSlot
        split
        · rfl
        · split <;> rfl
      exact (ih _).trans first

theorem issueAll_stores (slots : List (EU × Fin 2)) (o : OOOState) :
    (issueAll slots o).sbufDrainTick = o.sbufDrainTick ∧ (issueAll slots o).sbufCount = o.sbufCount := by
  induction slots generalizing o with
  | nil => exact ⟨rfl, rfl⟩
  | cons p rest ih =>
      have first : (issueSlot p.1 o p.2).sbufDrainTick = o.sbufDrainTick ∧ (issueSlot p.1 o p.2).sbufCount = o.sbufCount := by
        unfold issueSlot
        split
        · exact ⟨rfl, rfl⟩
        · split <;> exact ⟨rfl, rfl⟩
      exact ⟨(ih _).1.trans first.1, (ih _).2.trans first.2⟩

theorem nears_issueAll (slots : List (EU × Fin 2)) (o : OOOState) : o.Nears (issueAll slots o) := by
  induction slots generalizing o with
  | nil => exact .refl o
  | cons p rest ih => exact (o.nears_issueSlot p.1 p.2).trans (ih _)

theorem Ok.issueAll (ok : o.Ok) (slots : List (EU × Fin 2)) : (OOOState.issueAll slots o).Ok := by
  induction slots generalizing o with
  | nil => exact ok
  | cons p rest ih => exact ih (ok.issueSlot p.1 p.2)

/-- If the oldest instruction ends up in a station, it was in one before. -/
theorem Ok.station_before (ok : o.Ok) (ok' : o'.Ok) (live : o.robCount ≠ 0) (nears : o.Nears o') {k : RsIdx}
    (after : o'.occupant (.station k) = some o'.robHead) : ∃ j, o.occupant (.station j) = some o.robHead := by
  have head := ok.inv.renamed.head_valid live
  have unready := (ok'.inv.placed.waiting _ _ after).2
  rw [nears.head] at unready after
  have before : (o.rob o.robHead).ready = false := by
    cases ready : (o.rob o.robHead).ready with
    | false => rfl
    | true => exact absurd (unready.symm.trans (nears.ready live ready)) Bool.false_ne_true
  obtain ⟨place, here⟩ := ok.inv.placed.tracked _ head before ((ok.inv.renamed.valid _).mp head)
  cases place with
  | station j => exact ⟨j, here⟩
  | slot eu s =>
      rcases nears.slot live eu s here with ready | there
      · exact absurd (unready.symm.trans ready) Bool.false_ne_true
      · cases ok'.inv.placed.unique _ _ _ after there

/-- If the oldest instruction is left in a station, every slot of its unit was taken. -/
theorem Ok.issueAll_taken {slots : List (EU × Fin 2)} (ok : o.Ok) (live : o.robCount ≠ 0) {k : RsIdx}
    (after : (OOOState.issueAll slots o).occupant (.station k) = some (OOOState.issueAll slots o).robHead)
    (different : slots.Nodup) {s : Fin 2} (listed : (classify (o.rob o.robHead).ir.raw, s) ∈ slots) :
    (o.latch (classify (o.rob o.robHead).ir.raw) s).valid = true := by
  induction slots generalizing o with
  | nil => cases listed
  | cons p rest ih =>
      have nears := o.nears_issueSlot p.1 p.2
      have ok₁ := ok.issueSlot p.1 p.2
      have live₁ := nears.live live
      obtain ⟨j, waits⟩ := ok.station_before ok₁ live nears
        (ok₁.station_before (ok₁.issueAll rest) live₁ (nears_issueAll rest _) after).choose_spec
      obtain ⟨valid, index⟩ := station_of_occupant waits
      have unit : (o.rs j).euType = classify (o.rob o.robHead).ir.raw := by
        rw [(ok.inv.placed.station j valid).euType, index]
      cases taken : (o.latch (classify (o.rob o.robHead).ir.raw) s).valid with
      | true => rfl
      | false =>
          rcases List.mem_cons.mp listed with here | later
          · -- The instruction would have moved to the empty slot.
            have takes := ok.inv.issueSlot_takes waits (unit.symm ▸ taken)
            rw [unit] at takes
            subst here
            obtain ⟨i, station⟩ := ok₁.station_before (ok₁.issueAll rest) live₁ (nears_issueAll rest _) after
            rw [nears.head] at station
            cases ok₁.inv.placed.unique _ _ _ takes station
          · have raw := nears.unit live
            have still := ih ok₁ live₁ after (List.nodup_cons.mp different).2
            rw [nears.head, raw] at still
            have filled := still later
            have other : p ≠ (classify (o.rob o.robHead).ir.raw, s) := by
              rintro rfl
              exact (List.nodup_cons.mp different).1 later
            have same : (OOOState.issueSlot p.1 o p.2).latch (classify (o.rob o.robHead).ir.raw) s =
                o.latch (classify (o.rob o.robHead).ir.raw) s := by
              unfold OOOState.issueSlot
              split
              · rfl
              · split
                · rfl
                · change (o.setLatch p.1 p.2 _).latch _ _ = _
                  rw [latch_setLatch, if_neg]
                  rintro ⟨unit', slot'⟩
                  exact other (Prod.ext unit'.symm slot'.symm)
            rw [same] at filled
            exact absurd (taken.symm.trans filled) Bool.false_ne_true

end OOOState

end Sustemu
