import Sustemu.Ooo.Renaming

/-!
# Waiting instructions

Issue, completion with its broadcast, and the movements of the reorder buffer
keep every waiting instruction at exactly one place, with operands captured as
the register maps and the physical registers say.
-/

set_option autoImplicit false

namespace Sustemu

open Lib

namespace OOOState

variable {o o' : OOOState}

/-! ## Captured operands -/

theorem Captured.congr {before before' : Reg → PReg} {source : Option Reg} {decoded value : Word} {ready : Bool}
    {tag : PReg} (captured : o.Captured before source decoded ready value tag) (maps : before' = before)
    (prf : ∀ a, a ≠ 0 → o'.prf (before a) = o.prf (before a)) : o'.Captured before' source decoded ready value tag := by
  subst maps
  unfold Captured at *
  cases source with
  | none => exact captured
  | some a =>
      by_cases zero : a = 0
      · simp only [if_pos zero] at captured ⊢
        exact captured
      · simp only [if_neg zero] at captured ⊢
        obtain ⟨mapped, readiness, same⟩ := captured
        rw [mapped, prf a zero, ← mapped]
        exact ⟨rfl, readiness, same⟩

/-- A captured operand outlives changes to registers that are not ready. -/
theorem Captured.keep {before before' : Reg → PReg} {source : Option Reg} {decoded value : Word} {tag : PReg}
    (captured : o.Captured before source decoded true value tag) (maps : before' = before)
    (prf : ∀ a, a ≠ 0 → (o.prf (before a)).ready = true → o'.prf (before a) = o.prf (before a)) :
    o'.Captured before' source decoded true value tag := by
  subst maps
  unfold Captured at *
  cases source with
  | none => exact captured
  | some a =>
      by_cases zero : a = 0
      · simp only [if_pos zero] at captured ⊢
        exact captured
      · simp only [if_neg zero] at captured ⊢
        obtain ⟨mapped, readiness, same⟩ := captured
        rw [mapped] at readiness
        rw [mapped, prf a zero readiness.symm, ← mapped]
        exact ⟨rfl, by rw [mapped]; exact readiness, same⟩

/-- The tag of an operand that is not ready names a register that is not ready. -/
theorem Captured.not_ready {before : Reg → PReg} {source : Option Reg} {decoded value : Word} {tag : PReg}
    (captured : o.Captured before source decoded false value tag) :
    ∃ a, source = some a ∧ a ≠ 0 ∧ tag = before a ∧ (o.prf tag).ready = false := by
  unfold Captured at captured
  cases source with
  | none => cases captured.1
  | some a =>
      by_cases zero : a = 0
      · simp only [if_pos zero] at captured
        cases captured.1
      · simp only [if_neg zero] at captured
        exact ⟨a, rfl, zero, captured.1, captured.2.1.symm⟩

/-- A broadcast of `p` captures the operands that wait for it. -/
theorem Captured.wake {before : Reg → PReg} {source : Option Reg} {decoded value result : Word} {ready : Bool}
    {tag p : PReg} (captured : o.Captured before source decoded ready value tag) (unready : (o.prf p).ready = false)
    (prf : o'.prf = setAt o.prf p ⟨result, true⟩) :
    o'.Captured before source decoded (ready || tag == p) (if !ready && tag == p then result else value) tag := by
  unfold Captured at *
  cases source with
  | none =>
      obtain ⟨rfl, same⟩ := captured
      simpa using same
  | some a =>
      by_cases zero : a = 0
      · simp only [if_pos zero] at captured ⊢
        obtain ⟨rfl, same⟩ := captured
        simpa using same
      · simp only [if_neg zero] at captured ⊢
        obtain ⟨mapped, readiness, same⟩ := captured
        refine ⟨mapped, ?_⟩
        by_cases waited : tag = p
        · subst waited
          rw [unready] at readiness
          subst readiness
          simp [prf]
        · have other : (tag == p) = false := beq_false_of_ne waited
          rw [prf, setAt_of_ne waited, other]
          simpa using ⟨readiness, same⟩

theorem StationOk.congr {rs : RSEntry} (ok : o.StationOk rs) (entry : o'.rob rs.robIdx = o.rob rs.robIdx)
    (maps : o'.mapAt (o'.pos rs.robIdx) = o.mapAt (o.pos rs.robIdx))
    (prf : ∀ a, a ≠ 0 → o'.prf (o.mapAt (o.pos rs.robIdx) a) = o.prf (o.mapAt (o.pos rs.robIdx) a)) :
    o'.StationOk rs where
  physRd := by rw [entry]; exact ok.physRd
  euType := by rw [entry]; exact ok.euType
  src1 := by rw [entry]; exact ok.src1.congr maps prf
  src2 := by rw [entry]; exact ok.src2.congr maps prf

theorem LatchOk.congr {eu : EU} {l : OOOLatch} (ok : o.LatchOk eu l) (entry : o'.rob l.robIdx = o.rob l.robIdx)
    (maps : o'.mapAt (o'.pos l.robIdx) = o.mapAt (o.pos l.robIdx))
    (prf : ∀ a, a ≠ 0 → (o.prf (o.mapAt (o.pos l.robIdx) a)).ready = true →
      o'.prf (o.mapAt (o.pos l.robIdx) a) = o.prf (o.mapAt (o.pos l.robIdx) a)) : o'.LatchOk eu l where
  physRd := by rw [entry]; exact ok.physRd
  euType := by rw [entry]; exact ok.euType
  src1 := by
    obtain ⟨tag, captured⟩ := ok.src1
    rw [entry]
    exact ⟨tag, captured.keep maps prf⟩
  src2 := by
    obtain ⟨tag, captured⟩ := ok.src2
    rw [entry]
    exact ⟨tag, captured.keep maps prf⟩

/-! ## Places -/

theorem occupant_station {k : RsIdx} (valid : (o.rs k).valid = true) :
    o.occupant (.station k) = some (o.rs k).robIdx := by
  rw [occupant, if_pos valid]

theorem occupant_slot {eu : EU} {s : Fin 2} (valid : (o.latch eu s).valid = true)
    (kept : (o.latch eu s).flushed = false) : o.occupant (.slot eu s) = some (o.latch eu s).robIdx := by
  rw [occupant, valid, kept]
  rfl

theorem station_of_occupant {k : RsIdx} {i : RobIdx} (here : o.occupant (.station k) = some i) :
    (o.rs k).valid = true ∧ (o.rs k).robIdx = i := by
  rw [occupant] at here
  split at here
  · next valid => exact ⟨valid, Option.some.inj here⟩
  · cases here

theorem slot_of_occupant {eu : EU} {s : Fin 2} {i : RobIdx} (here : o.occupant (.slot eu s) = some i) :
    (o.latch eu s).valid = true ∧ (o.latch eu s).flushed = false ∧ (o.latch eu s).robIdx = i := by
  rw [occupant] at here
  split at here
  · next both =>
      obtain ⟨valid, kept⟩ := Bool.and_eq_true_iff.mp both
      exact ⟨valid, by simpa using kept, Option.some.inj here⟩
  · cases here

/-- Movements of the reorder buffer that leave stations and latches alone. -/
theorem Placed.transfer {limit limit' : Nat} (placed : o.Placed limit) (rs : o'.rs = o.rs) (latch : o'.latch = o.latch)
    (free : o'.rsFreeMask = o.rsFreeMask) (ready : o'.rsReadyMask = o.rsReadyMask)
    (entries : ∀ place i, o.occupant place = some i → o'.rob i = o.rob i ∧
      o'.mapAt (o'.pos i) = o.mapAt (o.pos i) ∧
      ∀ a, a ≠ 0 → o'.prf (o.mapAt (o.pos i) a) = o.prf (o.mapAt (o.pos i) a))
    (tracked : ∀ i, (o'.rob i).valid = true → (o'.rob i).ready = false → o'.pos i < limit' →
      ∃ place, o.occupant place = some i) : o'.Placed limit' := by
  have places : ∀ place, o'.occupant place = o.occupant place := by
    intro place
    cases place with
    | station k => rw [occupant, occupant, rs]
    | slot eu s => rw [occupant, occupant, latch]
  constructor
  · intro place i here
    rw [places] at here
    rw [(entries place i here).1]
    exact placed.waiting place i here
  · intro place place' i here there
    rw [places] at here there
    exact placed.unique place place' i here there
  · intro i valid waiting within
    obtain ⟨place, here⟩ := tracked i valid waiting within
    exact ⟨place, (places place).trans here⟩
  · intro k valid
    rw [rs] at valid ⊢
    obtain ⟨entry, maps, prf⟩ := entries _ _ (occupant_station valid)
    exact (placed.station k valid).congr entry maps prf
  · intro eu s valid kept
    rw [latch] at valid kept ⊢
    obtain ⟨entry, maps, prf⟩ := entries _ _ (occupant_slot valid kept)
    exact (placed.latched eu s valid kept).congr entry maps fun a nonzero _ => prf a nonzero
  · intro eu s
    rw [latch]
    exact placed.flushed eu s
  · intro k
    rw [free, rs]
    exact placed.freeMask k
  · intro eu k
    rw [ready, rs]
    exact placed.readyMask eu k

end OOOState

/-! ## Broadcast -/

namespace RSEntry

variable (rs : RSEntry) (tag : PReg) (result : Word)

/-- A woken station keeps its place and captures the operands that waited for the tag. -/
theorem wake_eq : (rs.wake tag result).1 =
    { rs with
      src1Ready := rs.src1Ready || rs.src1Ptag == tag
      src1Val := if !rs.src1Ready && rs.src1Ptag == tag then result else rs.src1Val
      src2Ready := rs.src2Ready || rs.src2Ptag == tag
      src2Val := if !rs.src2Ready && rs.src2Ptag == tag then result else rs.src2Val } := by
  obtain ⟨valid, physRd, robIdx, ready1, val1, tag1, ready2, val2, tag2, eu⟩ := rs
  unfold wake
  simp only
  cases ready1 <;> cases ready2 <;> cases tag1 == tag <;> cases tag2 == tag <;> rfl

theorem wake_changed : (rs.wake tag result).2 =
    ((!rs.src1Ready && rs.src1Ptag == tag) || (!rs.src2Ready && rs.src2Ptag == tag)) := rfl

end RSEntry

namespace OOOState

variable {o o' : OOOState}

/-- The result of `cdb_broadcast` on the ready masks, when the masks were exact. -/
theorem cdbBroadcast_readyMask (tag : PReg) {eu : EU} {k : RsIdx} (free : o.rsFreeMask k = !(o.rs k).valid)
    (ready : o.rsReadyMask eu k =
      ((o.rs k).valid && (o.rs k).src1Ready && (o.rs k).src2Ready && (o.rs k).euType == eu)) :
    (o.cdbBroadcast tag).rsReadyMask eu k =
      (((o.cdbBroadcast tag).rs k).valid && ((o.cdbBroadcast tag).rs k).src1Ready
        && ((o.cdbBroadcast tag).rs k).src2Ready && ((o.cdbBroadcast tag).rs k).euType == eu) := by
  cases valid : (o.rs k).valid with
  | false => simp [cdbBroadcast, free, ready, valid]
  | true =>
      have table : ∀ ready1 ready2 same1 same2 sameUnit : Bool,
          (if (!ready1 && same1 || !ready2 && same2) && (ready1 || same1) && (ready2 || same2) && sameUnit then true
            else ready1 && ready2 && sameUnit) = ((ready1 || same1) && (ready2 || same2) && sameUnit) := by
        decide
      have rule := table (o.rs k).src1Ready (o.rs k).src2Ready ((o.rs k).src1Ptag == tag)
        ((o.rs k).src2Ptag == tag) ((o.rs k).euType == eu)
      simp only [cdbBroadcast, free, ready, valid, RSEntry.wake_changed, RSEntry.wake_eq, Bool.not_true, Bool.not_false,
        Bool.false_eq_true, ↓reduceIte]
      simpa using rule

/-! ## Completion -/

/-- The instruction in slot `s` of unit `eu` completes: its entry becomes `entry`
and `result`, if it has a destination, is written and broadcast. -/
structure Completes (o : OOOState) (eu : EU) (s : Fin 2) (entry : ROBEntry) (result : Word) (o' : OOOState) : Prop where
  rob : o'.rob = setAt o.rob (o.latch eu s).robIdx entry
  head : o'.robHead = o.robHead
  tail : o'.robTail = o.robTail
  count : o'.robCount = o.robCount
  rat : o'.rat = o.rat
  rrat : o'.rrat = o.rrat
  freelist : o'.freelist = o.freelist
  freeMask : o'.rsFreeMask = o.rsFreeMask
  latch : o'.latch = (o.dropLatch eu s).latch
  written : ∀ r, (o.rob (o.latch eu s).robIdx).pending = some r →
    let w := (o.setPrf r.fresh ⟨result, true⟩).cdbBroadcast r.fresh
    o'.prf = w.prf ∧ o'.rs = w.rs ∧ o'.rsReadyMask = w.rsReadyMask
  unwritten : (o.rob (o.latch eu s).robIdx).pending = none →
    (∀ p, p ≠ 0 → o'.prf p = o.prf p) ∧ o'.rs = o.rs ∧ o'.rsReadyMask = o.rsReadyMask
  front : o'.latchIdRn = o.latchIdRn ∧ o'.latchIfId = o.latchIfId ∧ o'.fetchPc = o.fetchPc
  stores : o'.sbuf = o.sbuf ∧ o'.sbufHead = o.sbufHead ∧ o'.sbufTail = o.sbufTail ∧ o'.sbufCount = o.sbufCount
  lines : ∀ m, (o'.mshr m).lineAddr = (o.mshr m).lineAddr

theorem latch_dropLatch (o : OOOState) (eu : EU) (s : Fin 2) (eu' : EU) (s' : Fin 2) :
    (o.dropLatch eu s).latch eu' s' =
      if eu' = eu ∧ s' = s then { o.latch eu s with valid := false } else o.latch eu' s' := by
  unfold dropLatch setLatch
  by_cases sameUnit : eu' = eu
  · subst sameUnit
    by_cases sameSlot : s' = s
    · subst sameSlot
      simp
    · simp [sameSlot]
  · simp [sameUnit]

theorem Inv.completes (inv : o.Inv) {eu : EU} {s : Fin 2} {entry : ROBEntry} {result : Word}
    (completes : o.Completes eu s entry result o')
    (valid : (o.latch eu s).valid = true) (kept : (o.latch eu s).flushed = false)
    (same : (o.rob (o.latch eu s).robIdx).SameRename entry) (ready : entry.ready = true) : o'.Inv := by
  generalize slot : (o.latch eu s).robIdx = i at *
  have here : o.occupant (.slot eu s) = some i := slot ▸ occupant_slot valid kept
  obtain ⟨validI, unready⟩ := inv.placed.waiting _ _ here
  have other : ∀ j, j ≠ i → o'.rob j = o.rob j := fun j different => by
    rw [completes.rob, slot, setAt_of_ne different]
  have new : o'.rob i = entry := by rw [completes.rob, slot, setAt_self]
  have entries : ∀ j, (o.rob j).SameRename (o'.rob j) := by
    intro j
    by_cases sameSlot : j = i
    · rw [sameSlot, new]
      exact same
    · rw [other j sameSlot]
      exact .refl _
  have renamed : o'.Renamed := inv.renamed.congr completes.head completes.tail completes.count completes.rat
    completes.rrat completes.freelist entries
  have maps : ∀ n, o'.mapAt n = o.mapAt n := fun n =>
    mapAt_congr completes.rrat completes.head fun j _ => (entries j).pending
  have positions : ∀ j, o'.pos j = o.pos j := fun j => by rw [pos, completes.head]; rfl
  -- A waiting station belongs to another entry, and its map names no register but `p0`'s siblings.
  have stationElsewhere : ∀ k, (o.rs k).valid = true → (o.rs k).robIdx ≠ i := by
    intro k validK sameSlot
    have station : o.occupant (.station k) = some i := sameSlot ▸ occupant_station validK
    cases inv.placed.unique _ _ _ station here
  have tags : ∀ j a, (o.rob j).valid = true → a ≠ 0 → o.mapAt (o.pos j) a ≠ 0 := fun j a validJ nonzero =>
    inv.renamed.mapAt_ne_zero (Nat.le_of_lt ((inv.renamed.valid j).mp validJ)) nonzero
  have effect : (∀ k, (o'.rs k).valid = (o.rs k).valid ∧ (o'.rs k).robIdx = (o.rs k).robIdx) ∧
      (∀ p, p ≠ 0 → (∀ r, (o.rob i).pending = some r → p ≠ r.fresh) → o'.prf p = o.prf p) ∧
      (∀ r, (o.rob i).pending = some r → (o'.prf r.fresh).ready = true) ∧
      (∀ k, (o.rs k).valid = true → o'.StationOk (o'.rs k)) ∧
      ∀ unit k, o'.rsReadyMask unit k =
        ((o'.rs k).valid && (o'.rs k).src1Ready && (o'.rs k).src2Ready && (o'.rs k).euType == unit) := by
    have written := completes.written
    have unwritten := completes.unwritten
    rw [slot] at written unwritten
    cases pending : (o.rob i).pending with
    | none =>
        obtain ⟨prf, rs, mask⟩ := unwritten pending
        refine ⟨fun k => by rw [rs]; exact ⟨rfl, rfl⟩, fun p nonzero _ => prf p nonzero,
          fun _ absurdity => (by cases absurdity), ?_, ?_⟩
        · intro k validK
          rw [rs]
          have validJ := (inv.placed.waiting _ _ (occupant_station validK)).1
          exact (inv.placed.station k validK).congr (other _ (stationElsewhere k validK))
            ((maps _).trans (by rw [positions])) fun a nonzero => prf _ (tags _ a validJ nonzero)
        · intro unit k
          rw [mask, rs]
          exact inv.placed.readyMask unit k
    | some r =>
        obtain ⟨prf, rs, mask⟩ := written r pending
        have notReady : (o.prf r.fresh).ready = false := (inv.settled.inFlight i r validI pending).trans unready
        have station : ∀ k, o'.rs k = if o.rsFreeMask k then o.rs k else ((o.rs k).wake r.fresh result).1 := by
          intro k
          rw [rs]
          simp [cdbBroadcast, setPrf]
        have prfEq : o'.prf = setAt o.prf r.fresh ⟨result, true⟩ := prf
        refine ⟨?_, ?_, ?_, ?_, ?_⟩
        · intro k
          rw [station, RSEntry.wake_eq]
          split
          · exact ⟨rfl, rfl⟩
          · exact ⟨rfl, rfl⟩
        · intro p _ different
          rw [prfEq, setAt_of_ne (different r rfl)]
        · intro r' same'
          cases same'
          rw [prfEq, setAt_self]
        · intro k validK
          have ok := inv.placed.station k validK
          have occupied : o.rsFreeMask k = false := by rw [inv.placed.freeMask, validK]; rfl
          rw [station, occupied, RSEntry.wake_eq]
          have entry' := other _ (stationElsewhere k validK)
          refine ⟨?_, ?_, ?_, ?_⟩
          · simp only [Bool.false_eq_true, ↓reduceIte, entry']
            exact ok.physRd
          · simp only [Bool.false_eq_true, ↓reduceIte, entry']
            exact ok.euType
          · simp only [Bool.false_eq_true, ↓reduceIte, entry', maps, positions]
            exact ok.src1.wake notReady prfEq
          · simp only [Bool.false_eq_true, ↓reduceIte, entry', maps, positions]
            exact ok.src2.wake notReady prfEq
        · intro unit k
          rw [mask, rs]
          exact cdbBroadcast_readyMask r.fresh (inv.placed.freeMask k) (inv.placed.readyMask unit k)
  obtain ⟨stations, prf, wrote, station, masks⟩ := effect
  have places : ∀ place j, o'.occupant place = some j ↔ o.occupant place = some j ∧ place ≠ .slot eu s := by
    intro place j
    cases place with
    | station k =>
        rw [occupant, occupant, (stations k).1, (stations k).2]
        simp
    | slot eu' s' =>
        rw [occupant, occupant, completes.latch, latch_dropLatch]
        by_cases sameSlot : eu' = eu ∧ s' = s
        · rw [if_pos sameSlot]
          simp [sameSlot]
        · rw [if_neg sameSlot]
          simp [sameSlot]
  have elsewhere : ∀ place j, o'.occupant place = some j → o.occupant place = some j ∧ j ≠ i := by
    intro place j there
    obtain ⟨before, notHere⟩ := (places place j).mp there
    refine ⟨before, ?_⟩
    rintro rfl
    exact notHere (inv.placed.unique _ _ _ before here)
  refine ⟨renamed, ⟨?_, ?_⟩, ?_⟩
  · intro a nonzero
    rw [completes.rrat, prf]
    · exact inv.settled.committed a nonzero
    · exact fun zero => nonzero (inv.renamed.rrat_injective (zero.trans inv.renamed.zero.symm))
    · exact fun r pending => inv.renamed.rrat_ne_fresh validI pending a
  · intro j r validJ pendingJ
    by_cases sameSlot : j = i
    · subst sameSlot
      rw [(entries j).pending] at pendingJ
      rw [wrote r pendingJ, new, ready]
    · rw [other j sameSlot] at validJ pendingJ ⊢
      rw [prf]
      · exact inv.settled.inFlight j r validJ pendingJ
      · exact inv.renamed.fresh_ne_zero validJ pendingJ
      · exact fun r' pending' sameReg =>
          sameSlot (inv.renamed.fresh_injective validJ validI pendingJ pending' sameReg)
  · constructor
    · intro place j there
      obtain ⟨before, different⟩ := elsewhere place j there
      rw [other j different]
      exact inv.placed.waiting place j before
    · intro place place' j there there'
      exact inv.placed.unique place place' j (elsewhere place j there).1 (elsewhere place' j there').1
    · intro j validJ waiting within
      have different : j ≠ i := by
        rintro rfl
        rw [new, ready] at waiting
        cases waiting
      rw [other j different] at validJ waiting
      rw [positions, completes.count] at within
      obtain ⟨place, there⟩ := inv.placed.tracked j validJ waiting within
      refine ⟨place, (places place j).mpr ⟨there, ?_⟩⟩
      rintro rfl
      exact different (Option.some.inj (there.symm.trans here))
    · intro k validK
      rw [(stations k).1] at validK
      exact station k validK
    · intro eu' s' validL keptL
      rw [completes.latch, latch_dropLatch] at validL keptL ⊢
      by_cases sameSlot : eu' = eu ∧ s' = s
      · rw [if_pos sameSlot] at validL
        cases validL
      · rw [if_neg sameSlot] at validL keptL ⊢
        have there := occupant_slot validL keptL
        have different : (o.latch eu' s').robIdx ≠ i := by
          intro sameEntry
          rw [sameEntry] at there
          have samePlace := inv.placed.unique _ _ _ there here
          cases samePlace
          exact sameSlot ⟨rfl, rfl⟩
        have validJ := (inv.placed.waiting _ _ there).1
        apply (inv.placed.latched eu' s' validL keptL).congr (other _ different) ((maps _).trans (by rw [positions]))
        intro a nonzero readyTag
        apply prf _ (tags _ a validJ nonzero)
        intro r pending sameReg
        rw [sameReg, inv.settled.inFlight i r validI pending, unready] at readyTag
        cases readyTag
    · intro eu' s'
      rw [completes.latch, latch_dropLatch]
      by_cases sameSlot : eu' = eu ∧ s' = s
      · rw [if_pos sameSlot, sameSlot.1]
        exact inv.placed.flushed eu s
      · rw [if_neg sameSlot]
        exact inv.placed.flushed eu' s'
    · intro k
      rw [completes.freeMask, (stations k).1]
      exact inv.placed.freeMask k
    · exact masks

end OOOState

end Sustemu
