import Sustemu.Ooo.Waiting

/-!
# Preservation of the invariant

The remaining operations on the engine state: issue, renaming, commit,
misprediction recovery and the bookkeeping of the functional units.
-/

set_option autoImplicit false

namespace Sustemu

open Lib

namespace OOOState

variable {o o' : OOOState}

/-! ## Issue -/

theorem latch_setLatch (o : OOOState) (eu : EU) (s : Fin 2) (l : OOOLatch) (eu' : EU) (s' : Fin 2) :
    (o.setLatch eu s l).latch eu' s' = if eu' = eu ∧ s' = s then l else o.latch eu' s' := by
  unfold setLatch
  by_cases sameUnit : eu' = eu
  · subst sameUnit
    by_cases sameSlot : s' = s
    · subst sameSlot
      simp
    · simp [sameSlot]
  · simp [sameUnit]

theorem Inv.issue (inv : o.Inv) {eu : EU} {s : Fin 2} {k : RsIdx} (empty : (o.latch eu s).valid = false)
    (chosen : o.rsReadyMask eu k = true) : (o.latchFromRs eu s k).Inv := by
  rw [inv.placed.readyMask] at chosen
  simp only [Bool.and_eq_true, beq_iff_eq] at chosen
  obtain ⟨⟨⟨valid, ready1⟩, ready2⟩, unit⟩ := chosen
  have ok := inv.placed.station k valid
  have moved : ∀ eu' s', (o.latchFromRs eu s k).latch eu' s' = if eu' = eu ∧ s' = s then
      { robIdx := (o.rs k).robIdx, physRd := (o.rs k).physRd, valid := true, cyclesRem := -1, mshrIdx := none,
        flushed := false, src1Val := (o.rs k).src1Val, src2Val := (o.rs k).src2Val } else o.latch eu' s' :=
    fun eu' s' => latch_setLatch ..
  have stations : ∀ j, (o.latchFromRs eu s k).rs j = if j = k then { o.rs k with valid := false } else o.rs j := by
    intro j
    by_cases same : j = k
    · subst same
      simp [latchFromRs]
    · simp [latchFromRs, rsMaskClear, setLatch, same]
  have places : ∀ place i, (o.latchFromRs eu s k).occupant place = some i →
      (place = .slot eu s ∧ o.occupant (.station k) = some i) ∨
        (place ≠ .slot eu s ∧ place ≠ .station k ∧ o.occupant place = some i) := by
    intro place i here
    cases place with
    | station j =>
        rw [occupant, stations] at here
        by_cases same : j = k
        · rw [if_pos same] at here
          cases here
        · rw [if_neg same] at here
          exact .inr ⟨by simp, by simpa using same, here⟩
    | slot eu' s' =>
        rw [occupant, moved] at here
        by_cases same : eu' = eu ∧ s' = s
        · rw [if_pos same] at here
          refine .inl ⟨by rw [same.1, same.2], ?_⟩
          rw [occupant_station valid]
          exact here
        · rw [if_neg same] at here
          exact .inr ⟨by simpa using same, by simp, here⟩
  refine ⟨?_, ?_, ?_⟩
  · exact inv.renamed.congr rfl rfl rfl rfl rfl rfl fun i => .refl _
  · exact ⟨inv.settled.committed, inv.settled.inFlight⟩
  constructor
  · intro place i here
    rcases places place i here with ⟨_, before⟩ | ⟨_, _, before⟩
    · exact inv.placed.waiting _ i before
    · exact inv.placed.waiting _ i before
  · intro place place' i here there
    rcases places place i here with ⟨isSlot, before⟩ | ⟨notSlot, notStation, before⟩
    · rcases places place' i there with ⟨isSlot', _⟩ | ⟨_, notStation', before'⟩
      · rw [isSlot, isSlot']
      · exact absurd (inv.placed.unique _ _ _ before before').symm notStation'
    · rcases places place' i there with ⟨_, before'⟩ | ⟨_, _, before'⟩
      · exact absurd (inv.placed.unique _ _ _ before before') notStation
      · exact inv.placed.unique _ _ _ before before'
  · intro i validI waiting within
    obtain ⟨place, before⟩ := inv.placed.tracked i validI waiting within
    by_cases wasStation : place = .station k
    · refine ⟨.slot eu s, ?_⟩
      rw [wasStation, occupant_station valid] at before
      have filled := (moved eu s).trans (if_pos ⟨rfl, rfl⟩)
      rw [occupant, filled]
      exact before
    · refine ⟨place, ?_⟩
      cases place with
      | station j =>
          have different : j ≠ k := fun same => wasStation (by rw [same])
          rw [occupant, stations, if_neg different]
          exact before
      | slot eu' s' =>
          have different : ¬ (eu' = eu ∧ s' = s) := by
            rintro ⟨rfl, rfl⟩
            have occupied := (slot_of_occupant before).1
            rw [empty] at occupied
            cases occupied
          rw [occupant, moved, if_neg different]
          exact before
  · intro j validJ
    rw [stations] at validJ ⊢
    by_cases same : j = k
    · rw [if_pos same] at validJ
      cases validJ
    · rw [if_neg same] at validJ ⊢
      exact (inv.placed.station j validJ).congr rfl rfl fun _ _ => rfl
  · intro eu' s' validL kept
    rw [moved] at validL kept ⊢
    by_cases same : eu' = eu ∧ s' = s
    · rw [if_pos same]
      refine ⟨ok.physRd, ?_, ⟨_, ready1 ▸ ok.src1⟩, ⟨_, ready2 ▸ ok.src2⟩⟩
      rw [same.1, ← unit]
      exact ok.euType
    · rw [if_neg same] at validL kept ⊢
      exact (inv.placed.latched eu' s' validL kept).congr rfl rfl fun _ _ _ => rfl
  · intro eu' s'
    rw [moved]
    by_cases same : eu' = eu ∧ s' = s
    · rw [if_pos same]
      exact fun absurdity => absurd absurdity Bool.false_ne_true
    · rw [if_neg same]
      exact inv.placed.flushed eu' s'
  · intro j
    rw [stations]
    by_cases same : j = k
    · subst same
      simp [latchFromRs, rsMaskClear]
    · rw [if_neg same, ← inv.placed.freeMask]
      simp [latchFromRs, rsMaskClear, setLatch, same]
  · intro eu' j
    rw [stations]
    by_cases same : j = k
    · subst same
      by_cases sameUnit : eu' = (o.rs j).euType
      · simp [latchFromRs, rsMaskClear, setLatch, sameUnit]
      · have differentUnit : ((o.rs j).euType == eu') = false := beq_false_of_ne (Ne.symm sameUnit)
        simp [latchFromRs, rsMaskClear, setLatch, sameUnit, inv.placed.readyMask, differentUnit]
    · rw [if_neg same, ← inv.placed.readyMask]
      by_cases sameUnit : eu' = (o.rs k).euType
      · subst sameUnit
        simp [latchFromRs, rsMaskClear, setLatch, same]
      · simp [latchFromRs, rsMaskClear, setLatch, sameUnit]

/-! ## Rename -/

/-- The entry that renaming allocates. -/
def newEntry (o : OOOState) (ir : IRInst) (seq : Nat) : ROBEntry :=
  let dest := o.renameDest ir.rd
  { ir := ir, archRd := ir.rd, physRd := dest.1, oldPhys := dest.2.1, storeData := 0, ready := false, valid := true,
    seq := seq, ratAfter := dest.2.2.rat }

/-- The station that renaming allocates. -/
def newStation (o : OOOState) (ir : IRInst) : RSEntry :=
  let src1 := o.sourceOperand ir.rs1 ir.src1Val
  let src2 := o.sourceOperand ir.rs2 ir.src2Val
  { valid := true, physRd := (o.renameDest ir.rd).1, robIdx := o.robTail,
    src1Ready := src1.1, src1Val := src1.2.1, src1Ptag := src1.2.2,
    src2Ready := src2.1, src2Val := src2.2.1, src2Ptag := src2.2.2, euType := classify ir.raw }

/-- What renaming does to every field it touches. -/
structure Renames (o : OOOState) (ir : IRInst) (seq : Nat) (slot : RsIdx) (o' : OOOState) : Prop where
  free : o.rsFreeMask slot = true
  rob : o'.rob = setAt o.rob o.robTail (o.newEntry ir seq)
  head : o'.robHead = o.robHead
  tail : o'.robTail = o.robTail + 1
  count : o'.robCount = o.robCount + 1
  rat : o'.rat = (o.renameDest ir.rd).2.2.rat
  rrat : o'.rrat = o.rrat
  prf : o'.prf = (o.renameDest ir.rd).2.2.prf
  freelist : o'.freelist = (o.renameDest ir.rd).2.2.freelist
  rs : o'.rs = setAt o.rs slot (o.newStation ir)
  freeMask : o'.rsFreeMask = setAt o.rsFreeMask slot false
  readyMask : o'.rsReadyMask = setAt o.rsReadyMask (classify ir.raw)
    (setAt (o.rsReadyMask (classify ir.raw)) slot
      ((o.newStation ir).src1Ready && (o.newStation ir).src2Ready))
  latch : o'.latch = o.latch
  latchIdRn : o'.latchIdRn = o.latchIdRn
  latchIfId : o'.latchIfId = o.latchIfId
  fetchPc : o'.fetchPc = o.fetchPc
  mshr : o'.mshr = o.mshr
  sbuf : o'.sbuf = o.sbuf ∧ o'.sbufHead = o.sbufHead ∧ o'.sbufTail = o.sbufTail ∧ o'.sbufCount = o.sbufCount

theorem renames_of_renameInst {ir : IRInst} {seq : Nat} (renamed : o.renameInst ir seq = some o') :
    ∃ slot, o.Renames ir seq slot o' := by
  unfold renameInst at renamed
  simp only [Option.map_eq_some_iff] at renamed
  obtain ⟨slot, found, rfl⟩ := renamed
  refine ⟨slot, ?_⟩
  have station : o.freeStation = some slot := by
    rw [← found]
    unfold freeStation setRob renameDest
    cases ir.rd with
    | none => rfl
    | some a => by_cases zero : a = 0 <;> simp [zero, freelistPop, setPrf]
  have free := List.find?_some station
  cases rd : ir.rd with
  | none => constructor <;> simp_all [renameDest, newEntry, newStation, setRob, rsMaskUpdate]
  | some a =>
      by_cases zero : a = 0
      · constructor <;> simp_all [renameDest, newEntry, newStation, setRob, rsMaskUpdate]
      · constructor <;> simp_all [renameDest, newEntry, newStation, setRob, rsMaskUpdate, freelistPop, setPrf]

/-- Either nothing is allocated, or the destination takes the first free register. -/
theorem newEntry_cases (o : OOOState) (ir : IRInst) (seq : Nat) :
    ((o.newEntry ir seq).pending = none ∧ (o.newEntry ir seq).dest = none ∧
      ((o.newEntry ir seq).physRd = none ∨ (o.newEntry ir seq).physRd = some 0) ∧ (o.renameDest ir.rd).2.2 = o) ∨
    ∃ a, a ≠ 0 ∧ ir.rd = some a ∧ (o.newEntry ir seq).dest = some a ∧
      (o.newEntry ir seq).pending = some ⟨a, o.freelistPop.1, o.rat a⟩ ∧
      (o.renameDest ir.rd).2.2 =
        { o.freelistPop.2 with rat := setAt o.rat a o.freelistPop.1 }.setPrf o.freelistPop.1 ⟨0, false⟩ := by
  cases rd : ir.rd with
  | none =>
      left
      simp [newEntry, ROBEntry.pending, ROBEntry.dest, renameDest, rd]
  | some a =>
      by_cases zero : a = 0
      · left
        simp [newEntry, ROBEntry.pending, ROBEntry.dest, renameDest, rd, zero, Option.filter]
      · right
        refine ⟨a, zero, rfl, ?_⟩
        simp [newEntry, ROBEntry.pending, ROBEntry.dest, renameDest, rd, zero, Option.filter, freelistPop]

/-- The operands that renaming captures. -/
theorem captured_sourceOperand (o : OOOState) (source : Option Reg) (decoded : Word) :
    o.Captured o.rat source decoded (o.sourceOperand source decoded).1 (o.sourceOperand source decoded).2.1
      (o.sourceOperand source decoded).2.2 := by
  unfold Captured sourceOperand
  cases source with
  | none => exact ⟨rfl, rfl⟩
  | some a =>
      by_cases zero : a = 0
      · simp [zero]
      · cases ready : (o.prf (o.rat a)).ready with
        | true => simp [zero, ready]
        | false => simp [zero, ready]

theorem Inv.rename (inv : o.Inv) {ir : IRInst} {seq : Nat} {slot : RsIdx} (renames : o.Renames ir seq slot o')
    (room : o.robCount < 32) (names : (ir.rd.filter (· ≠ 0)).isSome = true → o.freelist.count ≠ 0) : o'.Inv := by
  have new : o'.rob o.robTail = o.newEntry ir seq := by rw [renames.rob, setAt_self]
  have other : ∀ i, i ≠ o.robTail → o'.rob i = o.rob i := fun i different => by
    rw [renames.rob, setAt_of_ne different]
  have tailPos : o.pos o.robTail = o.robCount := by rw [inv.renamed.tail, pos, age_add _ room]
  have tailFree : ∀ i, (o.rob i).valid = true → i ≠ o.robTail := by
    rintro i valid rfl
    have within := (inv.renamed.valid _).mp valid
    omega
  -- Registers, map and free list after the allocation.
  have effect : o'.Renamed ∧ (∀ p, p ∉ o.freeRegs → o'.prf p = o.prf p) ∧
      ∀ r, (o.newEntry ir seq).pending = some r → (o'.prf r.fresh).ready = false := by
    rcases newEntry_cases o ir seq with ⟨pending, dest, phys, same⟩ | ⟨a, nonzero, rd, dest, pending, changed⟩
    · refine ⟨?_, ?_, ?_⟩
      · apply inv.renamed.push room rfl renames.rob renames.head renames.tail renames.count renames.rrat
        · rw [renames.rat, same, pending]
          rfl
        · rw [renames.rat]
          rfl
        · rw [pending, dest]
          exact ⟨rfl, fun _ => phys⟩
        · intro r absurdity
          rw [pending] at absurdity
          cases absurdity
        · rw [renames.freelist, same]
          exact inv.renamed.freeTail
        · have free : o'.freeRegs = o.freeRegs := by
            unfold freeRegs
            rw [renames.freelist, same]
          rw [free, pending]
          simp
      · intro p _
        rw [renames.prf, same]
      · intro r absurdity
        rw [pending] at absurdity
        cases absurdity
    · have available : o.freelist.count ≠ 0 := names (by rw [rd]; simpa [Option.filter] using nonzero)
      obtain ⟨popped, freeTail⟩ := freeRegs_pop inv.renamed.freeTail available
      have free : o'.freeRegs = o.freelistPop.2.freeRegs := by
        unfold freeRegs
        rw [renames.freelist, changed]
        rfl
      refine ⟨?_, ?_, ?_⟩
      · apply inv.renamed.push room rfl renames.rob renames.head renames.tail renames.count renames.rrat
        · rw [renames.rat, changed, pending]
          rfl
        · rw [renames.rat]
          rfl
        · rw [pending, dest]
          exact ⟨rfl, fun absurdity => by cases absurdity⟩
        · intro r same
          rw [pending] at same
          cases same
          rfl
        · rw [renames.freelist, changed]
          exact freeTail
        · rw [free, pending, popped]
          exact List.perm_append_comm
      · intro p notFree
        have different : p ≠ o.freelistPop.1 := by
          rintro rfl
          rw [popped] at notFree
          exact notFree List.mem_cons_self
        rw [renames.prf, changed]
        exact setAt_of_ne different ..
      · intro r same
        rw [pending] at same
        cases same
        rw [renames.prf, changed]
        simp [setPrf]
  obtain ⟨renamed', prf, fresh⟩ := effect
  have positions : ∀ i, o'.pos i = o.pos i := fun i => by rw [pos, renames.head]; rfl
  have maps : ∀ n, n ≤ o.robCount → o'.mapAt n = o.mapAt n := by
    intro n small
    apply mapAt_congr renames.rrat renames.head
    intro i member
    rw [other i]
    rintro rfl
    have older : o.pos o.robTail < n := (mem_window_iff (by omega)).mp member
    omega
  have kept : ∀ n a, n ≤ o.robCount → o'.prf (o.mapAt n a) = o.prf (o.mapAt n a) := fun n a small =>
    prf _ fun free => inv.renamed.mapAt_not_free small a free rfl
  have emptyStation : (o.rs slot).valid = false := by
    have free := renames.free
    rw [inv.placed.freeMask] at free
    simpa using free
  have newStation' : o'.rs slot = o.newStation ir := by rw [renames.rs, setAt_self]
  have otherStation : ∀ k, k ≠ slot → o'.rs k = o.rs k := fun k different => by
    rw [renames.rs, setAt_of_ne different]
  have places : ∀ place i, o'.occupant place = some i ↔
      (place = .station slot ∧ i = o.robTail) ∨ (place ≠ .station slot ∧ o.occupant place = some i) := by
    intro place i
    cases place with
    | station k =>
        by_cases same : k = slot
        · subst same
          rw [occupant, newStation']
          simp [newStation, eq_comm]
        · rw [occupant, occupant, otherStation k same]
          simp [same]
    | slot eu s =>
        rw [occupant, occupant, renames.latch]
        simp
  have olderValid : ∀ place i, o.occupant place = some i → (o.rob i).valid = true ∧ o.pos i < o.robCount := by
    intro place i here
    have valid := (inv.placed.waiting place i here).1
    exact ⟨valid, (inv.renamed.valid i).mp valid⟩
  refine ⟨renamed', ⟨?_, ?_⟩, ?_⟩
  · intro a nonzero
    rw [renames.rrat]
    have same := kept 0 a (Nat.zero_le _)
    rw [mapAt_zero] at same
    rw [same]
    exact inv.settled.committed a nonzero
  · intro i r valid pending
    by_cases isNew : i = o.robTail
    · rw [isNew, new] at pending ⊢
      exact fresh r pending
    · rw [other i isNew] at valid pending ⊢
      rw [prf]
      · exact inv.settled.inFlight i r valid pending
      · intro free
        have apart := (List.nodup_append.mp inv.renamed.nodup).2.2
        exact apart _ free _ (List.mem_append_right _ (inv.renamed.mem_inFlight valid pending)) rfl
  constructor
  · intro place i here
    rcases (places place i).mp here with ⟨_, rfl⟩ | ⟨_, before⟩
    · rw [new]
      exact ⟨rfl, rfl⟩
    · rw [other i (tailFree i (olderValid place i before).1)]
      exact inv.placed.waiting place i before
  · intro place place' i here there
    rcases (places place i).mp here with ⟨isNew, tail⟩ | ⟨_, before⟩
    · rcases (places place' i).mp there with ⟨isNew', _⟩ | ⟨_, before'⟩
      · rw [isNew, isNew']
      · exact absurd tail (tailFree i (olderValid place' i before').1)
    · rcases (places place' i).mp there with ⟨_, tail⟩ | ⟨_, before'⟩
      · exact absurd tail (tailFree i (olderValid place i before).1)
      · exact inv.placed.unique place place' i before before'
  · intro i valid waiting within
    by_cases isNew : i = o.robTail
    · exact ⟨.station slot, (places _ _).mpr (.inl ⟨rfl, isNew⟩)⟩
    · rw [other i isNew] at valid waiting
      obtain ⟨place, before⟩ := inv.placed.tracked i valid waiting ((inv.renamed.valid i).mp valid)
      refine ⟨place, (places _ _).mpr (.inr ⟨?_, before⟩)⟩
      rintro rfl
      have occupied := (station_of_occupant before).1
      rw [emptyStation] at occupied
      cases occupied
  · intro k valid
    by_cases same : k = slot
    · subst same
      rw [newStation']
      have before : o'.mapAt (o'.pos o.robTail) = o.rat := by
        rw [positions, tailPos, maps _ (Nat.le_refl _), inv.renamed.rat]
      have values : ∀ a, a ≠ 0 → o'.prf (o.rat a) = o.prf (o.rat a) := by
        intro a _
        rw [inv.renamed.rat]
        exact kept _ a (Nat.le_refl _)
      refine ⟨?_, ?_, ?_, ?_⟩
      · simp only [newStation, new, newEntry]
      · simp only [newStation, new, newEntry]
      · simp only [newStation, new, newEntry]
        exact (captured_sourceOperand o ir.rs1 ir.src1Val).congr before values
      · simp only [newStation, new, newEntry]
        exact (captured_sourceOperand o ir.rs2 ir.src2Val).congr before values
    · rw [otherStation k same] at valid ⊢
      obtain ⟨validI, within⟩ := olderValid _ _ (occupant_station valid)
      exact (inv.placed.station k valid).congr (other _ (tailFree _ validI))
        (by rw [positions, maps _ (Nat.le_of_lt within)]) fun a _ => kept _ a (Nat.le_of_lt within)
  · intro eu s valid unflushed
    rw [renames.latch] at valid unflushed ⊢
    obtain ⟨validI, within⟩ := olderValid _ _ (occupant_slot valid unflushed)
    exact (inv.placed.latched eu s valid unflushed).congr (other _ (tailFree _ validI))
      (by rw [positions, maps _ (Nat.le_of_lt within)]) fun a _ _ => kept _ a (Nat.le_of_lt within)
  · intro eu s
    rw [renames.latch]
    exact inv.placed.flushed eu s
  · intro k
    by_cases same : k = slot
    · subst same
      rw [newStation', renames.freeMask, setAt_self]
      rfl
    · rw [otherStation k same, renames.freeMask, setAt_of_ne same]
      exact inv.placed.freeMask k
  · intro eu k
    rw [renames.readyMask]
    by_cases sameUnit : eu = classify ir.raw
    · subst sameUnit
      rw [setAt_self]
      by_cases same : k = slot
      · subst same
        rw [setAt_self, newStation']
        simp [newStation]
      · rw [setAt_of_ne same, otherStation k same]
        exact inv.placed.readyMask _ k
    · rw [setAt_of_ne sameUnit, inv.placed.readyMask]
      by_cases same : k = slot
      · subst same
        have wrongUnit : (classify ir.raw == eu) = false := beq_false_of_ne (Ne.symm sameUnit)
        rw [newStation', emptyStation]
        simp [newStation, wrongUnit]
      · rw [otherStation k same]

/-! ## Commit -/

theorem Inv.commit (inv : o.Inv) (live : o.robCount ≠ 0) (ready : (o.rob o.robHead).ready = true) :
    (o.commitRename (o.rob o.robHead)).retireHead.Inv := by
  obtain ⟨n, count⟩ := Nat.exists_eq_succ_of_ne_zero live
  have headValid := inv.renamed.head_valid live
  generalize result : (o.commitRename (o.rob o.robHead)).retireHead = o'
  -- The fields that do not depend on the entry's destination.
  have fields : o'.rob = setAt o.rob o.robHead { o.rob o.robHead with valid := false } ∧
      o'.robHead = o.robHead + 1 ∧ o'.robTail = o.robTail ∧ o'.robCount = n ∧ o'.rat = o.rat ∧ o'.rs = o.rs ∧
      o'.latch = o.latch ∧ o'.rsFreeMask = o.rsFreeMask ∧ o'.rsReadyMask = o.rsReadyMask := by
    subst result
    unfold retireHead commitRename
    rw [Nat.succ_eq_add_one] at count
    cases (o.rob o.robHead).pending with
    | none => simp [setRob, count]
    | some r => simp [setRob, clearReady, setPrf, freelistPush, count]
  obtain ⟨rob, head, tail, count', rat, rs, latch, freeMask, readyMask⟩ := fields
  have effect : o'.Renamed ∧ ∀ p, p ∉ o'.freeRegs → o'.prf p = o.prf p := by
    cases pending : (o.rob o.robHead).pending with
    | none =>
        have unchanged : o'.rrat = o.rrat ∧ o'.freelist = o.freelist ∧ o'.prf = o.prf := by
          subst result
          simp [retireHead, commitRename, pending, setRob]
        obtain ⟨rrat, freelist, prf⟩ := unchanged
        have free : o'.freeRegs = o.freeRegs := by
          unfold freeRegs
          rw [freelist]
        refine ⟨?_, fun p _ => by rw [prf]⟩
        apply inv.renamed.dropOldest count rfl rob head tail count' _ rat
        · rw [freelist]
          exact inv.renamed.freeTail
        · rw [free, pending]
          simp
        · rw [rrat, pending]
          rfl
    | some r =>
        have changed : o'.rrat = setAt o.rrat r.target r.fresh ∧
            o'.freelist = (o.freelistPush r.previous).freelist ∧
            o'.prf = setAt o.prf r.previous { o.prf r.previous with ready := false } := by
          subst result
          simp [retireHead, commitRename, pending, setRob, clearReady, setPrf, freelistPush]
        obtain ⟨rrat, freelist, prf⟩ := changed
        have room : o.freelist.count < 64 := by
          have total := inv.renamed.freelist_count
          omega
        obtain ⟨pushed, freeTail⟩ := freeRegs_push inv.renamed.freeTail room r.previous
        have free : o'.freeRegs = o.freeRegs ++ [r.previous] := by
          rw [← pushed]
          unfold freeRegs
          rw [freelist]
        refine ⟨?_, ?_⟩
        · apply inv.renamed.dropOldest count rfl rob head tail count' _ rat
          · rw [freelist]
            exact freeTail
          · rw [free, pending]
            rfl
          · rw [rrat, pending]
            rfl
        · intro p notFree
          rw [prf, setAt_of_ne]
          rintro rfl
          rw [free] at notFree
          exact notFree (List.mem_append_right _ List.mem_cons_self)
  obtain ⟨renamed', prf⟩ := effect
  have rrat : o'.rrat = applyRename o.rrat (o.rob o.robHead).pending := by
    subst result
    unfold retireHead commitRename
    cases (o.rob o.robHead).pending with
    | none => rfl
    | some r => rfl
  have other : ∀ i, i ≠ o.robHead → o'.rob i = o.rob i := fun i different => by
    rw [rob, setAt_of_ne different]
  have notHead : ∀ i, (o'.rob i).valid = true → i ≠ o.robHead := by
    rintro i valid rfl
    rw [rob, setAt_self] at valid
    cases valid
  have mapped : ∀ m a, m ≤ o'.robCount → o'.prf (o'.mapAt m a) = o.prf (o'.mapAt m a) := fun m a small =>
    prf _ fun free => renamed'.mapAt_not_free small a free rfl
  have positions : ∀ i, i ≠ o.robHead → o.pos i = o'.pos i + 1 := by
    intro i different
    unfold pos
    rw [head]
    exact age_succ_head different
  have maps : ∀ i, (o.rob i).valid = true → i ≠ o.robHead → o'.mapAt (o'.pos i) = o.mapAt (o.pos i) := by
    intro i valid different
    have within := (inv.renamed.valid i).mp valid
    have shifted := positions i different
    rw [shifted]
    exact mapAt_dropOldest inv.renamed.bounded rob head rrat (by omega)
  have waitingElsewhere : ∀ place i, o.occupant place = some i → (o.rob i).valid = true ∧ i ≠ o.robHead := by
    intro place i here
    obtain ⟨valid, waiting⟩ := inv.placed.waiting place i here
    refine ⟨valid, ?_⟩
    rintro rfl
    rw [ready] at waiting
    cases waiting
  refine ⟨renamed', ⟨?_, ?_⟩, ?_⟩
  · intro a nonzero
    have kept := mapped 0 a (Nat.zero_le _)
    rw [mapAt_zero] at kept
    rw [kept, rrat]
    cases pending : (o.rob o.robHead).pending with
    | none => exact inv.settled.committed a nonzero
    | some r =>
        by_cases same : a = r.target
        · rw [applyRename, same, setAt_self, inv.settled.inFlight _ r headValid pending, ready]
        · rw [applyRename, setAt_of_ne same]
          exact inv.settled.committed a nonzero
  · intro i r valid pending
    have different := notHead i valid
    rw [prf]
    · rw [other i different] at valid pending ⊢
      exact inv.settled.inFlight i r valid pending
    · intro free
      have apart := (List.nodup_append.mp renamed'.nodup).2.2
      exact apart _ free _ (List.mem_append_right _ (renamed'.mem_inFlight valid pending)) rfl
  · apply inv.placed.transfer rs latch freeMask readyMask
    · intro place i here
      obtain ⟨valid, different⟩ := waitingElsewhere place i here
      have same := maps i valid different
      refine ⟨other i different, same, ?_⟩
      intro a _
      rw [← same]
      apply mapped
      have within := (inv.renamed.valid i).mp valid
      have shifted := positions i different
      omega
    · intro i valid waiting _
      have different := notHead i valid
      rw [other i different] at valid waiting
      exact inv.placed.tracked i valid waiting ((inv.renamed.valid i).mp valid)

/-! ## Misprediction recovery -/

/-- Rolling back and squashing touch different fields. -/
theorem squash_rollbackOne (o : OOOState) (b : RobIdx) : o.rollbackOne.squash b = (o.squash b).rollbackOne := by
  unfold rollbackOne
  have sameRob : (o.squash b).rob = o.rob := rfl
  have sameTail : (o.squash b).robTail = o.robTail := rfl
  simp only [sameRob, sameTail]
  cases (o.rob (o.robTail - 1)).valid with
  | false => rfl
  | true =>
      cases (o.rob (o.robTail - 1)).pending with
      | none =>
          cases (!(o.rob (o.robTail - 1)).ready && opcode7Of (o.rob (o.robTail - 1)).ir.raw == 0x23) with
          | false => rfl
          | true => rfl
      | some r =>
          cases (!(o.rob (o.robTail - 1)).ready && opcode7Of (o.rob (o.robTail - 1)).ir.raw == 0x23) with
          | false => rfl
          | true => rfl

theorem squash_rollback (turns : Nat) (o : OOOState) (b : RobIdx) :
    (rollback turns o).squash b = rollback turns (o.squash b) := by
  induction turns generalizing o with
  | zero => rfl
  | succ turns ih => rw [rollback, rollback, ih, squash_rollbackOne]

/-- The invariant while the entries from position `limit` on are being discarded: nothing waits for them. -/
structure Squashed (o : OOOState) (limit : Nat) : Prop where
  renamed : o.Renamed
  settled : o.Settled
  placed : o.Placed limit
  older : ∀ place i, o.occupant place = some i → o.pos i < limit

theorem robNewerThan_iff {o : OOOState} {i b : RobIdx} : o.robNewerThan i b = true ↔ o.pos b < o.pos i := by
  simp [robNewerThan, pos, age]

theorem Inv.squash (inv : o.Inv) {b : RobIdx} (valid : (o.rob b).valid = true) :
    (o.squash b).Squashed (o.pos b + 1) := by
  have within := (inv.renamed.valid b).mp valid
  have stations : ∀ k, (o.squash b).rs k =
      if (o.rs k).valid && o.robNewerThan (o.rs k).robIdx b then { o.rs k with valid := false } else o.rs k :=
    fun _ => rfl
  -- An unflushed latch afterwards is an old latch of an entry that is kept.
  have latches : ∀ eu s, ((o.squash b).latch eu s).valid = true → ((o.squash b).latch eu s).flushed = false →
      (o.squash b).latch eu s = o.latch eu s ∧ ¬ o.pos b < o.pos (o.latch eu s).robIdx := by
    intro eu s
    simp only [OOOState.squash]
    split
    · split
      · intro _ absurdity
        cases absurdity
      · intro absurdity
        cases absurdity
    · next kept =>
        intro validL _
        rw [validL, Bool.true_and, robNewerThan_iff] at kept
        exact ⟨rfl, kept⟩
  have places : ∀ place i, (o.squash b).occupant place = some i ↔ o.occupant place = some i ∧ ¬ o.pos b < o.pos i := by
    intro place i
    cases place with
    | station k =>
        rw [occupant, occupant, stations]
        cases newer : (o.rs k).valid && o.robNewerThan (o.rs k).robIdx b with
        | true =>
            obtain ⟨validK, later⟩ := Bool.and_eq_true_iff.mp newer
            rw [robNewerThan_iff] at later
            simp only [↓reduceIte, Bool.false_eq_true, validK, false_iff, reduceCtorEq, Option.some.injEq]
            rintro ⟨rfl, older⟩
            exact older later
        | false =>
            simp only [Bool.false_eq_true, ↓reduceIte]
            constructor
            · intro here
              refine ⟨here, ?_⟩
              rw [← robNewerThan_iff]
              split at here
              · next validK =>
                  cases here
                  simpa [validK] using newer
              · cases here
            · exact And.left
    | slot eu s =>
        constructor
        · intro here
          obtain ⟨validL, kept, entry⟩ := slot_of_occupant here
          obtain ⟨same, older⟩ := latches eu s validL kept
          rw [same] at validL kept entry
          rw [entry] at older
          exact ⟨entry ▸ occupant_slot validL kept, older⟩
        · rintro ⟨here, older⟩
          obtain ⟨validL, kept, entry⟩ := slot_of_occupant here
          rw [← entry] at older
          have same : (o.squash b).latch eu s = o.latch eu s := by
            simp only [OOOState.squash]
            rw [if_neg]
            intro both
            exact older (robNewerThan_iff.mp (Bool.and_eq_true_iff.mp both).2)
          rw [occupant, same]
          exact here
  constructor
  · exact inv.renamed.congr rfl rfl rfl rfl rfl rfl fun i => .refl _
  · exact ⟨inv.settled.committed, inv.settled.inFlight⟩
  · constructor
    · intro place i here
      exact inv.placed.waiting place i ((places place i).mp here).1
    · intro place place' i here there
      exact inv.placed.unique place place' i ((places place i).mp here).1 ((places place' i).mp there).1
    · intro i validI waiting older
      obtain ⟨place, here⟩ := inv.placed.tracked i validI waiting ((inv.renamed.valid i).mp validI)
      have notNewer : ¬ o.pos b < o.pos i := by
        change o.pos i < _ at older
        omega
      exact ⟨place, (places place i).mpr ⟨here, notNewer⟩⟩
    · intro k validK
      rw [stations] at validK ⊢
      split at validK
      · cases validK
      · next kept =>
          rw [if_neg kept]
          exact (inv.placed.station k validK).congr rfl rfl fun _ _ => rfl
    · intro eu s validL kept
      have same := (latches eu s validL kept).1
      rw [same] at validL kept ⊢
      exact (inv.placed.latched eu s validL kept).congr rfl rfl fun _ _ _ => rfl
    · intro eu s
      simp only [OOOState.squash]
      split
      · split
        · next isLsu => exact fun _ => isLsu.1
        · exact inv.placed.flushed eu s
      · exact inv.placed.flushed eu s
    · intro k
      rw [stations]
      simp only [OOOState.squash]
      split
      · rfl
      · exact inv.placed.freeMask k
    · intro eu k
      rw [stations]
      simp only [OOOState.squash, inv.placed.readyMask]
      cases newer : (o.rs k).valid && o.robNewerThan (o.rs k).robIdx b with
      | true =>
          cases unit : (o.rs k).euType == eu with
          | true => simp
          | false => simp [unit]
      | false => simp
  · intro place i here
    have older := ((places place i).mp here).2
    change o.pos i < _
    omega

theorem Squashed.rollbackOne {limit n : Nat} (squashed : o.Squashed limit) (count : o.robCount = n + 1)
    (above : limit ≤ n) :
    o.rollbackOne.Squashed limit ∧ o.rollbackOne.robCount = n ∧ o.rollbackOne.robHead = o.robHead ∧
      o.rollbackOne.robTail = o.robTail - 1 := by
  have renamed := squashed.renamed
  have bounded := renamed.bounded
  have lastPos : o.pos (o.robTail - 1) = n := by
    rw [renamed.tail, count, ← add_ofNat_succ, add_sub_cancel_right, pos, age_add _ (by omega)]
  have lastValid : (o.rob (o.robTail - 1)).valid = true := by
    rw [renamed.valid, lastPos]
    omega
  generalize result : o.rollbackOne = o'
  have fields : o'.rob = setAt o.rob (o.robTail - 1) { o.rob (o.robTail - 1) with valid := false } ∧
      o'.robHead = o.robHead ∧ o'.robTail = o.robTail - 1 ∧ o'.robCount = n ∧ o'.rrat = o.rrat ∧ o'.rs = o.rs ∧
      o'.latch = o.latch ∧ o'.rsFreeMask = o.rsFreeMask ∧ o'.rsReadyMask = o.rsReadyMask ∧
      o'.rat = undoRename o.rat (o.rob (o.robTail - 1)).pending := by
    subst result
    unfold OOOState.rollbackOne
    simp only [lastValid, ↓reduceIte]
    cases (o.rob (o.robTail - 1)).pending with
    | none => split <;> simp [setRob, count, undoRename]
    | some r => split <;> simp [setRob, clearReady, setPrf, freelistPush, count, undoRename]
  obtain ⟨rob, head, tail, count', rrat, rs, latch, freeMask, readyMask, rat⟩ := fields
  have effect : o'.Renamed ∧ ∀ p, p ∉ o'.freeRegs → o'.prf p = o.prf p := by
    cases pending : (o.rob (o.robTail - 1)).pending with
    | none =>
        have unchanged : o'.freelist = o.freelist ∧ o'.prf = o.prf := by
          subst result
          unfold OOOState.rollbackOne
          simp only [lastValid, ↓reduceIte, pending]
          split <;> simp [setRob]
        obtain ⟨freelist, prf⟩ := unchanged
        have free : o'.freeRegs = o.freeRegs := by
          unfold freeRegs
          rw [freelist]
        refine ⟨?_, fun p _ => by rw [prf]⟩
        apply renamed.dropYoungest count rfl rob head tail count' rrat rat
        · rw [freelist]
          exact renamed.freeTail
        · rw [free, pending]
          simp
    | some r =>
        have changed : o'.freelist = (o.freelistPush r.fresh).freelist ∧
            o'.prf = setAt o.prf r.fresh { o.prf r.fresh with ready := false } := by
          subst result
          unfold OOOState.rollbackOne
          simp only [lastValid, ↓reduceIte, pending]
          split <;> simp [setRob, clearReady, setPrf, freelistPush]
        obtain ⟨freelist, prf⟩ := changed
        have room : o.freelist.count < 64 := by
          have total := renamed.freelist_count
          omega
        obtain ⟨pushed, freeTail⟩ := freeRegs_push renamed.freeTail room r.fresh
        have free : o'.freeRegs = o.freeRegs ++ [r.fresh] := by
          rw [← pushed]
          unfold freeRegs
          rw [freelist]
        refine ⟨?_, ?_⟩
        · apply renamed.dropYoungest count rfl rob head tail count' rrat rat
          · rw [freelist]
            exact freeTail
          · rw [free, pending]
            rfl
        · intro p notFree
          rw [prf, setAt_of_ne]
          rintro rfl
          rw [free] at notFree
          exact notFree (List.mem_append_right _ List.mem_cons_self)
  obtain ⟨renamed', prf⟩ := effect
  have other : ∀ i, i ≠ o.robTail - 1 → o'.rob i = o.rob i := fun i different => by
    rw [rob, setAt_of_ne different]
  have notLast : ∀ i, (o'.rob i).valid = true → i ≠ o.robTail - 1 := by
    rintro i valid rfl
    rw [rob, setAt_self] at valid
    cases valid
  have positions : ∀ i, o'.pos i = o.pos i := fun i => by rw [pos, head]; rfl
  have maps : ∀ m, m ≤ n → o'.mapAt m = o.mapAt m := by
    intro m small
    apply mapAt_congr rrat head
    intro i member
    rw [other i]
    rintro rfl
    have older : o.pos (o.robTail - 1) < m := (mem_window_iff (by omega)).mp member
    omega
  have mapped : ∀ m a, m ≤ n → o'.prf (o.mapAt m a) = o.prf (o.mapAt m a) := by
    intro m a small
    rw [← maps m small]
    exact prf _ fun free => renamed'.mapAt_not_free (by omega) a free rfl
  have older : ∀ place i, o.occupant place = some i → o.pos i < n ∧ i ≠ o.robTail - 1 := by
    intro place i here
    have below := squashed.older place i here
    refine ⟨by omega, ?_⟩
    rintro rfl
    omega
  refine ⟨⟨renamed', ⟨?_, ?_⟩, ?_, ?_⟩, count', head, tail⟩
  · intro a nonzero
    have kept := mapped 0 a (Nat.zero_le _)
    rw [mapAt_zero] at kept
    rw [rrat, kept]
    exact squashed.settled.committed a nonzero
  · intro i r valid pending
    have different := notLast i valid
    rw [prf]
    · rw [other i different] at valid pending ⊢
      exact squashed.settled.inFlight i r valid pending
    · intro free
      have apart := (List.nodup_append.mp renamed'.nodup).2.2
      exact apart _ free _ (List.mem_append_right _ (renamed'.mem_inFlight valid pending)) rfl
  · apply squashed.placed.transfer rs latch freeMask readyMask
    · intro place i here
      obtain ⟨below, different⟩ := older place i here
      exact ⟨other i different, by rw [positions, maps _ (Nat.le_of_lt below)],
        fun a _ => mapped _ a (Nat.le_of_lt below)⟩
    · intro i valid waiting below
      have different := notLast i valid
      rw [other i different] at valid waiting
      rw [positions] at below
      exact squashed.placed.tracked i valid waiting below
  · intro place i here
    have before : o.occupant place = some i := by
      cases place with
      | station k => rwa [occupant, rs] at here
      | slot eu s => rwa [occupant, latch] at here
    rw [positions]
    exact squashed.older place i before

theorem Squashed.rollback {limit turns : Nat} (squashed : o.Squashed limit) (count : o.robCount = limit + turns) :
    (OOOState.rollback turns o).Squashed limit ∧ (OOOState.rollback turns o).robCount = limit ∧
      (OOOState.rollback turns o).robHead = o.robHead := by
  induction turns generalizing o with
  | zero => exact ⟨squashed, count, rfl⟩
  | succ turns ih =>
      obtain ⟨squashed', count', head, _⟩ := squashed.rollbackOne (n := limit + turns) (by omega) (by omega)
      obtain ⟨done, counted, sameHead⟩ := ih squashed' count'
      exact ⟨done, counted, sameHead.trans head⟩

/-- Turns of the rollback loop: everything younger than `b`. -/
theorem Renamed.turns (renamed : o.Renamed) {b : RobIdx} (valid : (o.rob b).valid = true) :
    o.robCount = o.pos b + 1 + (o.robTail - (b + 1)).val := by
  have within := (renamed.valid b).mp valid
  have bounded := renamed.bounded
  have offset : (Fin.ofNat 32 o.robCount).val = o.robCount % 32 := rfl
  have tail := congrArg Fin.val renamed.tail
  rw [Fin.val_add, offset] at tail
  unfold pos age at within ⊢
  omega

theorem Inv.flushAfter (inv : o.Inv) {b : RobIdx} (valid : (o.rob b).valid = true) :
    (o.flushAfter b).Inv ∧ (o.flushAfter b).robCount = o.pos b + 1 := by
  unfold OOOState.flushAfter
  rw [squash_rollback]
  have turns := inv.renamed.turns valid
  obtain ⟨squashed, count, _⟩ := (inv.squash valid).rollback turns
  refine ⟨⟨squashed.renamed, squashed.settled, ?_⟩, count⟩
  rw [count]
  exact squashed.placed

/-- What the recovery loop never changes. -/
structure RollbackFrame (o o' : OOOState) : Prop where
  head : o'.robHead = o.robHead
  rrat : o'.rrat = o.rrat
  entry : ∀ i, o'.rob i = o.rob i ∨ o'.rob i = { o.rob i with valid := false }
  value : ∀ p, (o'.prf p).value = (o.prf p).value
  latch : o'.latch = o.latch
  rs : o'.rs = o.rs
  fetchPc : o'.fetchPc = o.fetchPc
  stores : o'.sbuf = o.sbuf ∧ o'.sbufHead = o.sbufHead ∧ o'.sbufTail = o.sbufTail ∧ o'.sbufCount = o.sbufCount
  mshr : o'.mshr = o.mshr

theorem value_clearReady (o : OOOState) (p q : PReg) : ((o.clearReady p).prf q).value = (o.prf q).value := by
  unfold clearReady setPrf
  by_cases same : q = p
  · rw [same]
    simp
  · simp [same]

theorem rollbackOne_frame (o : OOOState) : o.RollbackFrame o.rollbackOne := by
  have entry : ∀ (rob : RobIdx → ROBEntry) (tail i : RobIdx),
      setAt rob tail { rob tail with valid := false } i = rob i ∨
        setAt rob tail { rob tail with valid := false } i = { rob i with valid := false } := by
    intro rob tail i
    by_cases same : i = tail
    · rw [same, setAt_self]
      exact .inr rfl
    · exact .inl (setAt_of_ne same ..)
  unfold rollbackOne
  simp only
  split
  · cases (o.rob (o.robTail - 1)).pending with
    | none => split <;> exact ⟨rfl, rfl, entry _ _, fun _ => rfl, rfl, rfl, rfl, ⟨rfl, rfl, rfl, rfl⟩, rfl⟩
    | some r =>
        split <;> exact ⟨rfl, rfl, entry _ _, fun p => value_clearReady _ r.fresh p, rfl, rfl, rfl,
          ⟨rfl, rfl, rfl, rfl⟩, rfl⟩
  · exact ⟨rfl, rfl, fun _ => .inl rfl, fun _ => rfl, rfl, rfl, rfl, ⟨rfl, rfl, rfl, rfl⟩, rfl⟩

theorem rollback_frame (turns : Nat) (o : OOOState) : o.RollbackFrame (OOOState.rollback turns o) := by
  induction turns generalizing o with
  | zero => exact ⟨rfl, rfl, fun _ => .inl rfl, fun _ => rfl, rfl, rfl, rfl, ⟨rfl, rfl, rfl, rfl⟩, rfl⟩
  | succ turns ih =>
      have one := rollbackOne_frame o
      have more := ih o.rollbackOne
      refine ⟨more.head.trans one.head, more.rrat.trans one.rrat, ?_, fun p => (more.value p).trans (one.value p),
        more.latch.trans one.latch, more.rs.trans one.rs, more.fetchPc.trans one.fetchPc,
        ⟨more.stores.1.trans one.stores.1, more.stores.2.1.trans one.stores.2.1,
          more.stores.2.2.1.trans one.stores.2.2.1, more.stores.2.2.2.trans one.stores.2.2.2⟩,
        more.mshr.trans one.mshr⟩
      intro i
      rcases more.entry i with same | cleared
      · exact (one.entry i).imp same.trans same.trans
      · refine .inr (cleared.trans ?_)
        rcases one.entry i with same' | cleared'
        · rw [same']
        · rw [cleared']

/-- A flush of everything newer than `b`, field by field. -/
structure Flushes (o : OOOState) (b : RobIdx) (o' : OOOState) : Prop where
  inv : o'.Inv
  head : o'.robHead = o.robHead
  count : o'.robCount = o.pos b + 1
  rrat : o'.rrat = o.rrat
  older : ∀ i, o.pos i ≤ o.pos b → o'.rob i = o.rob i
  newer : ∀ i, o.pos b < o.pos i → (o'.rob i).valid = false
  value : ∀ p, (o'.prf p).value = (o.prf p).value
  latch : ∀ eu s, (o'.latch eu s).valid = true → (o.latch eu s).valid = true ∧
    ((o'.latch eu s).flushed = false → o'.latch eu s = o.latch eu s ∧ o.pos (o.latch eu s).robIdx ≤ o.pos b) ∧
    (o'.latch eu s).mshrIdx = (o.latch eu s).mshrIdx
  idRn : ∀ s, (o'.latchIdRn s).valid = false
  ifId : ∀ s, (o'.latchIfId s).valid = false
  stores : o'.sbuf = o.sbuf ∧ o'.sbufHead = o.sbufHead ∧ o'.sbufTail = o.sbufTail ∧ o'.sbufCount = o.sbufCount
  mshr : o'.mshr = o.mshr

theorem Inv.flushes (inv : o.Inv) {b : RobIdx} (valid : (o.rob b).valid = true) : o.Flushes b (o.flushAfter b) := by
  obtain ⟨inv', count⟩ := inv.flushAfter valid
  have frame := rollback_frame (o.robTail - (b + 1)).val o
  have inside := (inv.renamed.valid b).mp valid
  have positions : ∀ i, (o.flushAfter b).pos i = o.pos i := fun i => by
    rw [pos, show (o.flushAfter b).robHead = o.robHead from frame.head]
    rfl
  have entry : ∀ i, (o.flushAfter b).rob i = o.rob i ∨ (o.flushAfter b).rob i = { o.rob i with valid := false } :=
    frame.entry
  refine ⟨inv', frame.head, count, frame.rrat, ?_, ?_, frame.value, ?_, fun _ => rfl, fun _ => rfl, frame.stores,
    frame.mshr⟩
  · intro i older
    have live : ((o.flushAfter b).rob i).valid = true := (inv'.renamed.valid i).mpr (by rw [positions, count]; omega)
    rcases entry i with same | cleared
    · exact same
    · rw [cleared] at live
      cases live
  · intro i newer
    cases live : ((o.flushAfter b).rob i).valid with
    | false => rfl
    | true =>
        have within := (inv'.renamed.valid i).mp live
        rw [positions, count] at within
        omega
  · have newerThan : ∀ i, (OOOState.rollback (o.robTail - (b + 1)).val o).robNewerThan i b = o.robNewerThan i b := by
      intro i
      unfold robNewerThan
      rw [frame.head]
    intro eu s validL
    unfold OOOState.flushAfter OOOState.squash at validL ⊢
    simp only [frame.latch, newerThan] at validL ⊢
    cases hit : (o.latch eu s).valid && o.robNewerThan (o.latch eu s).robIdx b with
    | true =>
        rw [hit] at validL
        simp only [↓reduceIte] at validL ⊢
        split at validL
        · next keeps =>
            rw [if_pos keeps]
            exact ⟨validL, fun absurdity => absurd absurdity.symm Bool.false_ne_true, rfl⟩
        · cases validL
    | false =>
        rw [hit] at validL
        simp only [Bool.false_eq_true, ↓reduceIte] at validL ⊢
        refine ⟨validL, fun _ => ⟨trivial, ?_⟩, trivial⟩
        rw [validL, Bool.true_and] at hit
        have notNewer : ¬ o.pos b < o.pos (o.latch eu s).robIdx := fun newer => by
          rw [robNewerThan_iff.mpr newer] at hit
          cases hit
        omega

end OOOState

/-! ## Bookkeeping of the units -/

/-- Two latches that agree on the instruction they hold. -/
structure OOOLatch.SameLoad (l l' : OOOLatch) : Prop where
  robIdx : l'.robIdx = l.robIdx
  physRd : l'.physRd = l.physRd
  valid : l'.valid = l.valid
  flushed : l'.flushed = l.flushed
  src1Val : l'.src1Val = l.src1Val
  src2Val : l'.src2Val = l.src2Val

theorem OOOLatch.SameLoad.refl (l : OOOLatch) : l.SameLoad l := ⟨rfl, rfl, rfl, rfl, rfl, rfl⟩

/-- A latch without a live instruction. -/
def OOOLatch.Idle (l : OOOLatch) : Prop := l.valid = false ∨ l.flushed = true

namespace OOOState

variable {o o' : OOOState}

theorem occupant_idle {eu : EU} {s : Fin 2} (idle : (o.latch eu s).Idle) : o.occupant (.slot eu s) = none := by
  rw [occupant]
  rcases idle with invalid | flushed
  · simp [invalid]
  · simp [flushed]

/-- Steps that keep the renaming state and every live latch. -/
theorem Inv.frame (inv : o.Inv) (prf : ∀ p, p ≠ 0 → o'.prf p = o.prf p) (rat : o'.rat = o.rat) (rrat : o'.rrat = o.rrat)
    (freelist : o'.freelist = o.freelist) (head : o'.robHead = o.robHead) (tail : o'.robTail = o.robTail)
    (count : o'.robCount = o.robCount) (rob : o'.rob = o.rob) (rs : o'.rs = o.rs)
    (freeMask : o'.rsFreeMask = o.rsFreeMask) (readyMask : o'.rsReadyMask = o.rsReadyMask)
    (latch : ∀ eu s, (o.latch eu s).SameLoad (o'.latch eu s) ∨
      (o.latch eu s).Idle ∧ (o'.latch eu s).Idle ∧ (o'.latch eu s).flushed = (o.latch eu s).flushed) : o'.Inv := by
  have renamed : o'.Renamed := inv.renamed.congr head tail count rat rrat freelist fun i => by rw [rob]; exact .refl _
  have maps : ∀ n, o'.mapAt n = o.mapAt n := fun n => mapAt_congr rrat head fun i _ => by rw [rob]
  have positions : ∀ i, o'.pos i = o.pos i := fun i => by rw [pos, head]; rfl
  have tags : ∀ i a, (o.rob i).valid = true → a ≠ 0 → o'.prf (o.mapAt (o.pos i) a) = o.prf (o.mapAt (o.pos i) a) :=
    fun i a valid nonzero => prf _ (inv.renamed.mapAt_ne_zero (Nat.le_of_lt ((inv.renamed.valid i).mp valid)) nonzero)
  have places : ∀ place, o'.occupant place = o.occupant place := by
    intro place
    cases place with
    | station k => rw [occupant, occupant, rs]
    | slot eu s =>
        rcases latch eu s with same | ⟨idle, idle', _⟩
        · rw [occupant, occupant, same.valid, same.flushed, same.robIdx]
        · rw [occupant_idle idle, occupant_idle idle']
  refine ⟨renamed, ⟨?_, ?_⟩, ?_⟩
  · intro a nonzero
    rw [rrat, prf]
    · exact inv.settled.committed a nonzero
    · exact fun zero => nonzero (inv.renamed.rrat_injective (zero.trans inv.renamed.zero.symm))
  · intro i r valid pending
    rw [rob] at valid pending ⊢
    rw [prf _ (inv.renamed.fresh_ne_zero valid pending)]
    exact inv.settled.inFlight i r valid pending
  constructor
  · intro place i here
    rw [places] at here
    rw [rob]
    exact inv.placed.waiting place i here
  · intro place place' i here there
    rw [places] at here there
    exact inv.placed.unique place place' i here there
  · intro i valid waiting within
    rw [rob] at valid waiting
    rw [positions, count] at within
    obtain ⟨place, here⟩ := inv.placed.tracked i valid waiting within
    exact ⟨place, (places place).trans here⟩
  · intro k valid
    rw [rs] at valid ⊢
    have validI := (inv.placed.waiting _ _ (occupant_station valid)).1
    exact (inv.placed.station k valid).congr (by rw [rob]) (by rw [positions, maps]) fun a => tags _ a validI
  · intro eu s valid kept
    rcases latch eu s with same | ⟨_, idle', _⟩
    · rw [same.valid] at valid
      rw [same.flushed] at kept
      have validI := (inv.placed.waiting _ _ (occupant_slot valid kept)).1
      have ok : o'.LatchOk eu (o.latch eu s) := (inv.placed.latched eu s valid kept).congr (by rw [rob])
        (by rw [positions, maps]) fun a nonzero _ => tags _ a validI nonzero
      refine ⟨?_, ?_, ?_, ?_⟩
      · rw [same.physRd, same.robIdx]
        exact ok.physRd
      · rw [same.robIdx]
        exact ok.euType
      · rw [same.robIdx, same.src1Val]
        exact ok.src1
      · rw [same.robIdx, same.src2Val]
        exact ok.src2
    · rcases idle' with invalid | flushed
      · rw [invalid] at valid
        cases valid
      · rw [flushed] at kept
        cases kept
  · intro eu s flushed
    apply inv.placed.flushed eu s
    rcases latch eu s with same | ⟨_, _, same⟩
    · rw [← same.flushed]
      exact flushed
    · rw [← same]
      exact flushed
  · intro k
    rw [freeMask, rs]
    exact inv.placed.freeMask k
  · intro eu k
    rw [readyMask, rs]
    exact inv.placed.readyMask eu k

/-- Only an absent register refers to the decoded operand. -/
theorem Captured.decoded {before : Reg → PReg} {source : Option Reg} {decoded value : Word} {ready : Bool} {tag : PReg}
    (captured : o.Captured before source decoded ready value tag) :
    o.Captured before source value ready value tag := by
  unfold Captured at *
  cases source with
  | none => exact ⟨captured.1, rfl⟩
  | some a => exact captured

/-- New operands or flags of an entry that waits nowhere, or of the instruction in a latch. -/
theorem Inv.setIr (inv : o.Inv) {i : RobIdx} {ir : IRInst}
    (settled : (∀ place, o.occupant place ≠ some i) ∨
      (ir.raw = (o.rob i).ir.raw ∧ ir.rs1 = (o.rob i).ir.rs1 ∧ ir.rs2 = (o.rob i).ir.rs2 ∧
        ∃ eu s, (o.latch eu s).valid = true ∧ (o.latch eu s).flushed = false ∧ (o.latch eu s).robIdx = i ∧
          ir.src1Val = (o.latch eu s).src1Val ∧ ir.src2Val = (o.latch eu s).src2Val)) :
    (o.setRob i { o.rob i with ir := ir }).Inv := by
  generalize result : o.setRob i { o.rob i with ir := ir } = o'
  have new : o'.rob i = { o.rob i with ir := ir } := by
    subst result
    exact setAt_self ..
  have other : ∀ j, j ≠ i → o'.rob j = o.rob j := by
    subst result
    exact fun j different => setAt_of_ne different ..
  have entries : ∀ j, (o.rob j).SameRename (o'.rob j) ∧ (o'.rob j).ready = (o.rob j).ready := by
    intro j
    by_cases same : j = i
    · rw [same, new]
      exact ⟨⟨rfl, rfl, rfl, rfl, rfl⟩, rfl⟩
    · rw [other j same]
      exact ⟨.refl _, rfl⟩
  have places : ∀ place, o'.occupant place = o.occupant place := by
    subst result
    intro place
    cases place with
    | station k => rfl
    | slot eu s => rfl
  have prf : o'.prf = o.prf := by rw [← result]; rfl
  have latch : o'.latch = o.latch := by rw [← result]; rfl
  have rs : o'.rs = o.rs := by rw [← result]; rfl
  have renamed : o'.Renamed := by
    have parts : o'.robHead = o.robHead ∧ o'.robTail = o.robTail ∧ o'.robCount = o.robCount ∧ o'.rat = o.rat ∧
        o'.rrat = o.rrat ∧ o'.freelist = o.freelist := by
      subst result
      exact ⟨rfl, rfl, rfl, rfl, rfl, rfl⟩
    obtain ⟨head, tail, count, rat, rrat, freelist⟩ := parts
    exact inv.renamed.congr head tail count rat rrat freelist fun j => (entries j).1
  have maps : ∀ j, o'.mapAt (o'.pos j) = o.mapAt (o.pos j) := by
    intro j
    have parts : o'.robHead = o.robHead ∧ o'.rrat = o.rrat := by
      subst result
      exact ⟨rfl, rfl⟩
    rw [pos, parts.1]
    exact mapAt_congr parts.2 parts.1 fun j _ => (entries j).1.pending
  refine ⟨renamed, ⟨?_, ?_⟩, ?_⟩
  · have rrat : o'.rrat = o.rrat := by rw [← result]; rfl
    intro a nonzero
    rw [prf, rrat]
    exact inv.settled.committed a nonzero
  · intro j r valid pending
    rw [(entries j).1.valid] at valid
    rw [(entries j).1.pending] at pending
    rw [prf, (entries j).2]
    exact inv.settled.inFlight j r valid pending
  constructor
  · intro place j here
    rw [places] at here
    rw [(entries j).1.valid, (entries j).2]
    exact inv.placed.waiting place j here
  · intro place place' j here there
    rw [places] at here there
    exact inv.placed.unique place place' j here there
  · intro j valid waiting within
    rw [(entries j).1.valid] at valid
    rw [(entries j).2] at waiting
    have bound := (inv.renamed.valid j).mp valid
    obtain ⟨place, here⟩ := inv.placed.tracked j valid waiting bound
    exact ⟨place, (places place).trans here⟩
  · intro k valid
    rw [rs] at valid ⊢
    have different : (o.rs k).robIdx ≠ i := by
      intro same
      have here := same ▸ occupant_station valid
      rcases settled with nowhere | ⟨_, _, _, eu, s, validL, kept, there, _⟩
      · exact nowhere _ here
      · cases inv.placed.unique _ _ _ here (there ▸ occupant_slot validL kept)
    exact (inv.placed.station k valid).congr (other _ different) (maps _) fun _ _ => by rw [prf]
  · intro eu s valid kept
    rw [latch] at valid kept ⊢
    have ok := inv.placed.latched eu s valid kept
    by_cases same : (o.latch eu s).robIdx = i
    · rcases settled with nowhere | ⟨raw, rs1, rs2, eu', s', validL, keptL, there, src1, src2⟩
      · exact absurd (same ▸ occupant_slot valid kept) (nowhere _)
      · have samePlace := inv.placed.unique _ _ _ (same ▸ occupant_slot valid kept) (there ▸ occupant_slot validL keptL)
        obtain ⟨rfl, rfl⟩ := Place.slot.inj samePlace
        obtain ⟨tag1, captured1⟩ := ok.src1
        obtain ⟨tag2, captured2⟩ := ok.src2
        rw [same] at captured1 captured2
        refine ⟨?_, ?_, ⟨tag1, ?_⟩, ⟨tag2, ?_⟩⟩
        · rw [same, new, ← same]
          exact ok.physRd
        · rw [same, new]
          simp only
          rw [raw, ← same]
          exact ok.euType
        · rw [same, new]
          simp only
          rw [rs1, src1]
          exact captured1.decoded.congr (maps i) fun _ _ => by rw [prf]
        · rw [same, new]
          simp only
          rw [rs2, src2]
          exact captured2.decoded.congr (maps i) fun _ _ => by rw [prf]
    · exact ok.congr (other _ same) (maps _) fun _ _ _ => by rw [prf]
  · intro eu s
    rw [latch]
    exact inv.placed.flushed eu s
  · intro k
    rw [rs, ← result]
    exact inv.placed.freeMask k
  · intro eu k
    rw [rs, ← result]
    exact inv.placed.readyMask eu k

end OOOState

end Sustemu
