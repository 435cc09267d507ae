import Sustemu.Ooo.Steps

/-!
# Every step keeps the invariant

`Ok` bundles the renaming invariant with what decoding and the LSU have
established. Each constructor of the step relations preserves it.
-/

set_option autoImplicit false

namespace Sustemu

open Lib

namespace OOOState

variable {o o' : OOOState}

theorem rob_setRob_self (o : OOOState) (i : RobIdx) (entry : ROBEntry) : (o.setRob i entry).rob i = entry :=
  setAt_self ..

/-! ## Slots -/

theorem Live.occupant {eu : EU} {s : Fin 2} (live : o.Live eu s) :
    o.occupant (.slot eu s) = some (o.latch eu s).robIdx := occupant_slot live.valid live.kept

theorem Inv.live_entry (inv : o.Inv) {eu : EU} {s : Fin 2} (live : o.Live eu s) :
    (o.slotEntry eu s).valid = true ∧ (o.slotEntry eu s).ready = false := inv.placed.waiting _ _ live.occupant

/-- No two live slots work for the same entry. -/
theorem Inv.live_unique (inv : o.Inv) {eu eu' : EU} {s s' : Fin 2} (live : o.Live eu s) (live' : o.Live eu' s')
    (same : (o.latch eu s).robIdx = (o.latch eu' s').robIdx) : eu = eu' ∧ s = s' := by
  have place := inv.placed.unique _ _ _ live.occupant (same ▸ live'.occupant)
  exact ⟨(Place.slot.inj place).1, (Place.slot.inj place).2⟩

/-- Whether a slot has its address depends only on its latch and its instruction. -/
theorem Addressed.congr {s : Fin 2} (addressed : o.Addressed s) (latch : (o.latch .lsu s).SameLoad (o'.latch .lsu s))
    (ir : (o'.slotEntry .lsu s).ir = (o.slotEntry .lsu s).ir) : o'.Addressed s where
  live := ⟨latch.valid.trans addressed.live.valid, latch.flushed.trans addressed.live.kept⟩
  computed :=
    ⟨by rw [ir, latch.src1Val]; exact addressed.computed.src1, by rw [ir, latch.src2Val]; exact addressed.computed.src2,
      by rw [ir]; exact addressed.computed.done⟩
  load := by rw [ir]; exact addressed.load

/-- The last two conditions of `Ok`, for one slot. -/
structure SlotOk (o : OOOState) (s : Fin 2) : Prop where
  missed : ∀ m, (o.latch .lsu s).mshrIdx = some m → o.Addressed s ∧ (o.slotEntry .lsu s).ir.memAddr < mmioBase
  delayed : (o.latch .lsu s).mshrIdx = none → (o.latch .lsu s).cyclesRem ≠ -1 →
    o.Addressed s ∧ (o.latch .lsu s).cyclesRem = -2

theorem Ok.slotOk (ok : o.Ok) {s : Fin 2} (live : o.Live .lsu s) : o.SlotOk s :=
  ⟨fun m => ok.missed s m live, ok.delayed s live⟩

theorem SlotOk.congr {s : Fin 2} (slot : o.SlotOk s) (latch : o'.latch .lsu s = o.latch .lsu s)
    (ir : (o'.slotEntry .lsu s).ir = (o.slotEntry .lsu s).ir) : o'.SlotOk s where
  missed := by
    intro m missed
    rw [latch] at missed
    obtain ⟨addressed, cached⟩ := slot.missed m missed
    exact ⟨addressed.congr (latch ▸ .refl _) ir, by rw [ir]; exact cached⟩
  delayed := by
    intro none visited
    rw [latch] at none visited ⊢
    obtain ⟨addressed, cycles⟩ := slot.delayed none visited
    exact ⟨addressed.congr (latch ▸ .refl _) ir, cycles⟩

/-- A slot that was not visited yet. -/
theorem SlotOk.fresh {s : Fin 2} (mshr : (o.latch .lsu s).mshrIdx = none) (cycles : (o.latch .lsu s).cyclesRem = -1) :
    o.SlotOk s where
  missed := fun m missed => by
    rw [mshr] at missed
    cases missed
  delayed := fun _ visited => absurd cycles visited

theorem Ok.of_slots (inv : o'.Inv)
    (decoded : ∀ i, (o'.rob i).valid = true → (o'.rob i).ir.Decoded ∧ (o'.rob i).archRd = rdOf (o'.rob i).ir.raw)
    (idRn : ∀ s, (o'.latchIdRn s).valid = true → (o'.latchIdRn s).ir.Fetched)
    (ifId : ∀ s, (o'.latchIfId s).valid = true → (o'.latchIfId s).ir.Fetched)
    (inOrder : (o'.latchIfId 1).valid = true → (o'.latchIfId 0).valid = true)
    (slots : ∀ s, o'.Live .lsu s → o'.SlotOk s) : o'.Ok :=
  ⟨inv, decoded, idRn, ifId, inOrder, fun s m live => (slots s live).missed m, fun s live => (slots s live).delayed⟩

/-- Changes that keep every entry's instruction, the live LSU latches and the front end. -/
theorem Ok.keep (ok : o.Ok) (inv : o'.Inv)
    (entries : ∀ i, (o'.rob i).valid = true → (o.rob i).valid = true ∧ (o'.rob i).archRd = (o.rob i).archRd ∧
      (o'.rob i).ir = (o.rob i).ir)
    (idRn : o'.latchIdRn = o.latchIdRn) (ifId : o'.latchIfId = o.latchIfId)
    (latch : ∀ s, o'.Live .lsu s → o'.latch .lsu s = o.latch .lsu s) : o'.Ok := by
  apply Ok.of_slots inv
  · intro i valid
    obtain ⟨validI, archRd, ir⟩ := entries i valid
    rw [archRd, ir]
    exact ok.decoded i validI
  · rw [idRn]
    exact ok.idRn
  · rw [ifId]
    exact ok.ifId
  · rw [ifId]
    exact ok.inOrder
  · intro s live
    have same := latch s live
    have before : o.Live .lsu s := ⟨same ▸ live.valid, same ▸ live.kept⟩
    apply (ok.slotOk before).congr same
    have valid := (inv.live_entry live).1
    unfold slotEntry at valid ⊢
    rw [(entries _ valid).2.2, same]

/-! ## Completion -/

/-- The operands a slot captured, where the instruction has immediates. -/
theorem Inv.immediates (inv : o.Inv) {eu : EU} {s : Fin 2} (live : o.Live eu s) :
    ((o.slotEntry eu s).ir.rs1 = none → (o.latch eu s).src1Val = (o.slotEntry eu s).ir.src1Val) ∧
    ((o.slotEntry eu s).ir.rs2 = none → (o.latch eu s).src2Val = (o.slotEntry eu s).ir.src2Val) := by
  have ok := inv.placed.latched eu s live.valid live.kept
  obtain ⟨_, captured1⟩ := ok.src1
  obtain ⟨_, captured2⟩ := ok.src2
  constructor
  · intro absent
    unfold slotEntry at absent
    rw [absent] at captured1
    exact captured1.2
  · intro absent
    unfold slotEntry at absent
    rw [absent] at captured2
    exact captured2.2

/-- The record handed to the executor. -/
theorem operands_sameInst (o : OOOState) (eu : EU) (s : Fin 2) :
    (o.slotEntry eu s).ir.SameInst (Engine.operands o (o.latch eu s)) := ⟨rfl, rfl, rfl, rfl, rfl, rfl, rfl, rfl, id, fun _ => rfl⟩

theorem Ok.completes (ok : o.Ok) {eu : EU} {s : Fin 2} {entry : ROBEntry} {result : Word}
    (completes : o.Completes eu s entry result o') (live : o.Live eu s) (same : (o.slotEntry eu s).SameRename entry)
    (ready : entry.ready = true) (inst : (o.slotEntry eu s).ir.SameInst entry.ir)
    (src1 : (o.slotEntry eu s).ir.rs1 = none → entry.ir.src1Val = (o.slotEntry eu s).ir.src1Val)
    (src2 : (o.slotEntry eu s).ir.rs2 = none → entry.ir.src2Val = (o.slotEntry eu s).ir.src2Val) : o'.Ok := by
  have inv := ok.inv.completes completes live.valid live.kept same ready
  have other : ∀ i, i ≠ (o.latch eu s).robIdx → o'.rob i = o.rob i := fun i different => by
    rw [completes.rob, setAt_of_ne different]
  apply Ok.of_slots inv
  · intro i valid
    by_cases here : i = (o.latch eu s).robIdx
    · subst here
      rw [completes.rob, setAt_self]
      obtain ⟨decoded, archRd⟩ := ok.decoded _ (ok.inv.live_entry live).1
      refine ⟨decoded.sameInst inst src1 src2, ?_⟩
      rw [same.archRd, inst.raw]
      exact archRd
    · rw [other i here] at valid ⊢
      exact ok.decoded i valid
  · rw [completes.front.1]
    exact ok.idRn
  · rw [completes.front.2.1]
    exact ok.ifId
  · rw [completes.front.2.1]
    exact ok.inOrder
  · intro t liveT
    have place : ¬ (EU.lsu = eu ∧ t = s) := by
      rintro ⟨rfl, rfl⟩
      have valid := liveT.valid
      rw [completes.latch, latch_dropLatch, if_pos ⟨rfl, rfl⟩] at valid
      cases valid
    have latch : o'.latch .lsu t = o.latch .lsu t := by rw [completes.latch, latch_dropLatch, if_neg place]
    have before : o.Live .lsu t := ⟨latch ▸ liveT.valid, latch ▸ liveT.kept⟩
    apply (ok.slotOk before).congr latch
    unfold slotEntry
    rw [latch, other]
    intro shared
    exact place (ok.inv.live_unique before live shared)

/-- An LSU instruction runs a pure executor. -/
theorem Ok.lsu_pure (ok : o.Ok) {s : Fin 2} (live : o.Live .lsu s) :
    (o.slotEntry .lsu s).ir.execFn.isMemory = true := by
  have unit := (ok.inv.placed.latched _ _ live.valid live.kept).euType
  have decoded := (ok.decoded _ (ok.inv.live_entry live).1).1
  change (o.rob (o.latch .lsu s).robIdx).ir.execFn.isMemory = true
  rw [decoded.fn]
  apply isMemory_of_opcode
  unfold classify at unit
  split at unit
  · next memory => exact memory
  · split at unit
    · cases unit
    · cases unit

/-- A flush keeps `Ok`. -/
theorem Ok.flushes (ok : o.Ok) {b : RobIdx} (flushes : o.Flushes b o') : o'.Ok := by
  apply Ok.of_slots flushes.inv
  · intro i valid
    have older : o.pos i ≤ o.pos b := by
      by_contra newer
      rw [flushes.newer i (by omega)] at valid
      cases valid
    rw [flushes.older i older] at valid ⊢
    exact ok.decoded i valid
  · intro s valid
    rw [flushes.idRn s] at valid
    cases valid
  · intro s valid
    rw [flushes.ifId s] at valid
    cases valid
  · intro valid
    rw [flushes.ifId 1] at valid
    cases valid
  · intro s live
    obtain ⟨_, kept, _⟩ := flushes.latch .lsu s live.valid
    obtain ⟨latch, older⟩ := kept live.kept
    have before : o.Live .lsu s := ⟨latch ▸ live.valid, latch ▸ live.kept⟩
    apply (ok.slotOk before).congr latch
    unfold slotEntry
    rw [latch, flushes.older _ older]

end OOOState

namespace Engine

variable {σ β : Type} {vm : VMem σ} {cfg : OooConfig β} {e e' : Engine σ β}

/-! ## Commit -/

/-- What a comparison with the reference never changes. -/
structure CheckFrame (e e' : Engine σ β) : Prop where
  ooo : e'.ooo = e.ooo
  pc : e'.cpu.pc = e.cpu.pc
  nextSeq : e'.nextSeq = e.nextSeq
  active : e'.difftestActive = e.difftestActive
  log : ∃ extra, e'.log = e.log ++ extra ∧ ∀ event ∈ extra, ∃ entry, event = .mismatch entry

theorem difftestStep_frame (stepped : e.difftestStep vm cfg = some e') : e.CheckFrame e' ∧ e'.log = e.log := by
  have keep : e.CheckFrame e := ⟨rfl, rfl, rfl, rfl, [], (List.append_nil _).symm, fun _ absurdity => (nomatch absurdity)⟩
  simp only [difftestStep, Option.bind_eq_bind, Option.bind_eq_some_iff] at stepped
  obtain ⟨_, _, _, _, done⟩ := stepped
  split at done
  · obtain ⟨_, _, done⟩ := Option.bind_eq_some_iff.mp done
    cases done
    exact ⟨⟨rfl, rfl, rfl, rfl, keep.log⟩, rfl⟩
  · obtain ⟨_, _, done⟩ := Option.bind_eq_some_iff.mp done
    cases done
    exact ⟨⟨rfl, rfl, rfl, rfl, keep.log⟩, rfl⟩

theorem difftestCheck_frame {entry : ROBEntry} (checked : e.difftestCheck vm cfg entry = some e') :
    e.CheckFrame e' := by
  simp only [difftestCheck, Option.bind_eq_bind, Option.bind_eq_some_iff] at checked
  obtain ⟨e₁, stepped, rest⟩ := checked
  obtain ⟨frame, log⟩ := difftestStep_frame stepped
  have quiet : ∃ extra, e₁.log = e.log ++ extra ∧ ∀ event ∈ extra, ∃ entry, event = .mismatch entry :=
    ⟨[], by rw [log, List.append_nil], fun _ absurdity => (nomatch absurdity)⟩
  have loud : ∃ extra, e₁.log ++ [.mismatch entry] = e.log ++ extra ∧
      ∀ event ∈ extra, ∃ entry, event = .mismatch entry :=
    ⟨[.mismatch entry], by rw [log], fun event member => ⟨entry, List.mem_singleton.mp member⟩⟩
  split at rest
  · cases rest
    exact ⟨frame.ooo, frame.pc, frame.nextSeq, frame.active, quiet⟩
  · cases rest
    exact frame
  · split at rest
    · split at rest
      · cases rest
        exact ⟨frame.ooo, frame.pc, frame.nextSeq, frame.active, quiet⟩
      · split at rest
        · cases rest
          exact ⟨frame.ooo, frame.pc, frame.nextSeq, frame.active, loud⟩
        · cases rest
          exact ⟨frame.ooo, frame.pc, frame.nextSeq, frame.active, quiet⟩
    · split at rest
      · cases rest
        exact frame
      · cases rest
        exact ⟨frame.ooo, frame.pc, frame.nextSeq, frame.active, loud⟩

end Engine

/-- The store buffer after a cacheable store enters it. -/
def OOOState.pushStore (o : OOOState) (entry : ROBEntry) : OOOState :=
  { o with
    sbuf := setAt o.sbuf o.sbufTail ⟨entry.ir.memAddr, entry.storeData, entry.ir.memWidth, true, entry.seq⟩
    sbufTail := o.sbufTail + 1
    sbufCount := o.sbufCount + 1 }

/-- The engine state after the head entry commits. -/
def OOOState.afterCommit (o : OOOState) : OOOState :=
  let entry := o.rob o.robHead
  let o := if entry.ir.itype = .store ∧ inDram entry.ir.memAddr = true then o.pushStore entry else o
  (o.commitRename entry).retireHead

namespace Engine

variable {σ β : Type} {vm : VMem σ} {cfg : OooConfig β} {e e' : Engine σ β}

theorem commitStore_cases {entry : ROBEntry} (stored : e.commitStore vm entry = some e') :
    (entry.ir.itype = .store ∧ inDram entry.ir.memAddr = true ∧ e' = { e with ooo := e.ooo.pushStore entry }) ∨
    (entry.ir.itype = .store ∧ inDram entry.ir.memAddr = false ∧
      ∃ world, vm.write e.world entry.ir.memAddr entry.ir.memWidth entry.storeData = some world ∧
        e' = { e with world := world }) ∨
    (entry.ir.itype ≠ .store ∧ e' = e) := by
  unfold commitStore at stored
  split at stored
  · next store =>
      split at stored
      · next cached =>
          cases stored
          exact .inl ⟨store, cached, rfl⟩
      · next device =>
          obtain ⟨world, written, same⟩ := Option.map_eq_some_iff.mp stored
          exact .inr (.inl ⟨store, by simpa using device, world, written, same.symm⟩)
  · next other =>
      cases stored
      exact .inr (.inr ⟨other, rfl⟩)

/-- What a commit does to the engine. -/
structure Commits (vm : VMem σ) (e e' : Engine σ β) : Prop where
  ooo : e'.ooo = e.ooo.afterCommit
  pc : e'.cpu.pc = (e.ooo.rob e.ooo.robHead).ir.dnpc
  nextSeq : e'.nextSeq = e.nextSeq
  active : e'.difftestActive = e.difftestActive
  log : ∃ extra, e'.log = e.log ++ .commit (e.ooo.rob e.ooo.robHead) (commitValue e.ooo (e.ooo.rob e.ooo.robHead)) ::
    extra ∧ ∀ event ∈ extra, ∃ entry, event = .mismatch entry
  regs : e.difftestActive = false → e'.cpu.gpr = match (e.ooo.rob e.ooo.robHead).pending with
    | some r => e.cpu.gpr.set r.target (e.ooo.prf r.fresh).value
    | none => e.cpu.gpr
  world : e.difftestActive = false → e'.world = e.world ∧ ((e.ooo.rob e.ooo.robHead).ir.itype = .store →
    inDram (e.ooo.rob e.ooo.robHead).ir.memAddr = true) ∨
    (e.ooo.rob e.ooo.robHead).ir.itype = .store ∧ inDram (e.ooo.rob e.ooo.robHead).ir.memAddr = false ∧
      vm.write e.world (e.ooo.rob e.ooo.robHead).ir.memAddr (e.ooo.rob e.ooo.robHead).ir.memWidth
        (e.ooo.rob e.ooo.robHead).storeData = some e'.world

theorem commits_of_checked {e₁ e₂ : Engine σ β} (stored : e.commitStore vm (e.ooo.rob e.ooo.robHead) = some e₁)
    (checked : (if e₁.difftestActive then e₁.committed.difftestCheck vm cfg (e.ooo.rob e.ooo.robHead)
      else some e₁.committed) = some e₂) : Commits vm e e₂.retire := by
  have frame : e₁.committed.CheckFrame e₂ ∧ (e₁.difftestActive = false → e₂ = e₁.committed) := by
    split at checked
    · next active =>
        refine ⟨difftestCheck_frame checked, ?_⟩
        rw [active]
        exact fun absurdity => (nomatch absurdity)
    · cases checked
      exact ⟨⟨rfl, rfl, rfl, rfl, [], (List.append_nil _).symm, fun _ absurdity => (nomatch absurdity)⟩, fun _ => rfl⟩
  obtain ⟨⟨ooo, pc, nextSeq, active, extra, log, mismatches⟩, off⟩ := frame
  have retired : e₂.retire.ooo = e₁.committed.ooo.retireHead := by
    rw [← ooo]
    rfl
  rcases commitStore_cases stored with ⟨store, cached, rfl⟩ | ⟨store, device, world, written, rfl⟩ | ⟨other, rfl⟩
  · refine ⟨?_, pc, nextSeq, active, ⟨extra, log.trans (List.append_assoc _ [_] _), mismatches⟩, ?_, ?_⟩
    · rw [retired, OOOState.afterCommit]
      simp only [store, cached, and_self, ↓reduceIte]
      rfl
    · intro inactive
      rw [off inactive]
      rfl
    · intro inactive
      rw [off inactive]
      exact .inl ⟨rfl, fun _ => cached⟩
  · refine ⟨?_, pc, nextSeq, active, ⟨extra, log.trans (List.append_assoc _ [_] _), mismatches⟩, ?_, ?_⟩
    · rw [retired, OOOState.afterCommit]
      simp only [device, Bool.false_eq_true, and_false, ↓reduceIte]
      rfl
    · intro inactive
      rw [off inactive]
      rfl
    · intro inactive
      rw [off inactive]
      exact .inr ⟨store, device, written⟩
  · refine ⟨?_, pc, nextSeq, active, ⟨extra, log.trans (List.append_assoc _ [_] _), mismatches⟩, ?_, ?_⟩
    · rw [retired, OOOState.afterCommit]
      simp only [other, false_and, ↓reduceIte]
      rfl
    · intro inactive
      rw [off inactive]
      rfl
    · intro inactive
      rw [off inactive]
      exact .inl ⟨rfl, fun store => absurd store other⟩

end Engine

namespace OOOState

variable {o o' : OOOState}

/-- The fields of the state after a commit. -/
structure CommitFrame (o o' : OOOState) : Prop where
  rob : o'.rob = setAt o.rob o.robHead { o.rob o.robHead with valid := false }
  head : o'.robHead = o.robHead + 1
  count : o'.robCount = o.robCount - 1
  rrat : o'.rrat = applyRename o.rrat (o.rob o.robHead).pending
  rat : o'.rat = o.rat
  value : ∀ p, (o'.prf p).value = (o.prf p).value
  rs : o'.rs = o.rs
  latch : o'.latch = o.latch
  idRn : o'.latchIdRn = o.latchIdRn
  ifId : o'.latchIfId = o.latchIfId
  fetchPc : o'.fetchPc = o.fetchPc
  mshr : o'.mshr = o.mshr

theorem afterCommit_frame (o : OOOState) : o.CommitFrame o.afterCommit := by
  unfold afterCommit
  simp only
  split
  · unfold commitRename
    cases pending : (o.rob o.robHead).pending with
    | none => exact ⟨rfl, rfl, rfl, by rw [pending]; rfl, rfl, fun _ => rfl, rfl, rfl, rfl, rfl, rfl, rfl⟩
    | some r =>
        exact ⟨rfl, rfl, rfl, by rw [pending]; rfl, rfl, value_clearReady _ r.previous, rfl, rfl, rfl, rfl, rfl, rfl⟩
  · unfold commitRename
    cases pending : (o.rob o.robHead).pending with
    | none => exact ⟨rfl, rfl, rfl, by rw [pending]; rfl, rfl, fun _ => rfl, rfl, rfl, rfl, rfl, rfl, rfl⟩
    | some r =>
        exact ⟨rfl, rfl, rfl, by rw [pending]; rfl, rfl, value_clearReady _ r.previous, rfl, rfl, rfl, rfl, rfl, rfl⟩

theorem selectIssue_better (o : OOOState) (eu : EU) : o.selectIssue eu =
    (List.finRange 16).foldl (better (o.issuable eu) fun i => o.pos (o.rs i).robIdx) none := by
  unfold selectIssue
  congr 1
  funext best i
  cases best with
  | none => rfl
  | some best => rfl

/-- The station that issues is issuable, and no other issuable one is older. -/
theorem selectIssue_some {eu : EU} {k : RsIdx} (chosen : o.selectIssue eu = some k) :
    o.issuable eu k = true ∧ ∀ j, o.issuable eu j = true → o.pos (o.rs k).robIdx ≤ o.pos (o.rs j).robIdx := by
  rw [selectIssue_better] at chosen
  obtain ⟨issuable, _, oldest⟩ := (foldl_better (o.issuable eu) (fun i => o.pos (o.rs i).robIdx)
    (List.finRange 16) none nofun).1 k chosen
  exact ⟨issuable, fun j => oldest j (List.mem_finRange j)⟩

theorem selectIssue_readyMask {eu : EU} {k : RsIdx} (chosen : o.selectIssue eu = some k) :
    o.rsReadyMask eu k = true := by
  have allowed := (selectIssue_some chosen).1
  rw [issuable] at allowed
  exact (Bool.and_eq_true_iff.mp allowed).1

/-- Two states with the same renamed machine. -/
structure SameBack (o o' : OOOState) : Prop where
  prf : o'.prf = o.prf
  rat : o'.rat = o.rat
  rrat : o'.rrat = o.rrat
  freelist : o'.freelist = o.freelist
  head : o'.robHead = o.robHead
  tail : o'.robTail = o.robTail
  count : o'.robCount = o.robCount
  rob : o'.rob = o.rob
  rs : o'.rs = o.rs
  freeMask : o'.rsFreeMask = o.rsFreeMask
  readyMask : o'.rsReadyMask = o.rsReadyMask
  latch : o'.latch = o.latch

theorem Inv.same (inv : o.Inv) (same : o.SameBack o') : o'.Inv :=
  inv.frame (fun _ _ => by rw [same.prf]) same.rat same.rrat same.freelist same.head same.tail same.count same.rob
    same.rs same.freeMask same.readyMask fun _ _ => .inl (by rw [same.latch]; exact .refl _)

/-- Movements of the front end alone. -/
theorem Ok.front (ok : o.Ok) (same : o.SameBack o')
    (idRn : ∀ s, (o'.latchIdRn s).valid = true → (o'.latchIdRn s).ir.Fetched)
    (ifId : ∀ s, (o'.latchIfId s).valid = true → (o'.latchIfId s).ir.Fetched)
    (inOrder : (o'.latchIfId 1).valid = true → (o'.latchIfId 0).valid = true) : o'.Ok := by
  apply Ok.of_slots (ok.inv.same same) _ idRn ifId inOrder
  · intro s live
    have before : o.Live .lsu s := ⟨same.latch ▸ live.valid, same.latch ▸ live.kept⟩
    apply (ok.slotOk before).congr (by rw [same.latch])
    rw [slotEntry, slotEntry, same.latch, same.rob]
  · rw [same.rob]
    exact ok.decoded

/-- Changes outside the renamed machine and the front end. -/
theorem Ok.same (ok : o.Ok) (same : o.SameBack o') (idRn : o'.latchIdRn = o.latchIdRn)
    (ifId : o'.latchIfId = o.latchIfId) : o'.Ok :=
  ok.front same (idRn ▸ ok.idRn) (ifId ▸ ok.ifId) (ifId ▸ ok.inOrder)

theorem Inv.afterCommit (inv : o.Inv) (live : o.robCount ≠ 0) (ready : (o.rob o.robHead).ready = true) :
    o.afterCommit.Inv := by
  unfold OOOState.afterCommit
  simp only
  split
  · have pushed : (o.pushStore (o.rob o.robHead)).Inv :=
      inv.same ⟨rfl, rfl, rfl, rfl, rfl, rfl, rfl, rfl, rfl, rfl, rfl, rfl⟩
    exact pushed.commit live ready
  · exact inv.commit live ready

theorem Ok.afterCommit (ok : o.Ok) (live : o.robCount ≠ 0) (ready : (o.rob o.robHead).ready = true) :
    o.afterCommit.Ok := by
  have frame := afterCommit_frame o
  apply ok.keep (ok.inv.afterCommit live ready) ?_ frame.idRn frame.ifId fun s _ => by rw [frame.latch]
  intro i valid
  rw [frame.rob] at valid ⊢
  by_cases head : i = o.robHead
  · rw [head, setAt_self] at valid
    cases valid
  · rw [setAt_of_ne head] at valid ⊢
    exact ⟨valid, rfl, rfl⟩

/-! ## Visits of the units -/

/-- A visit that moves a slot's counters on. -/
theorem Ok.visit (ok : o.Ok) {eu : EU} {s : Fin 2} {l : OOOLatch} (mshr : MshrIdx → MSHREntry)
    (same : (o.latch eu s).SameLoad l)
    (slot : eu = .lsu → (({ o with mshr := mshr } : OOOState).setLatch eu s l).Live .lsu s →
      (({ o with mshr := mshr } : OOOState).setLatch eu s l).SlotOk s) :
    (({ o with mshr := mshr } : OOOState).setLatch eu s l).Ok := by
  generalize result : ({ o with mshr := mshr } : OOOState).setLatch eu s l = o' at *
  have latch : ∀ eu' s', o'.latch eu' s' = if eu' = eu ∧ s' = s then l else o.latch eu' s' := by
    intro eu' s'
    rw [← result]
    exact latch_setLatch ..
  have inv : o'.Inv := by
    apply ok.inv.frame <;> try (subst result; exact rfl)
    · subst result
      exact fun _ _ => rfl
    · intro eu' s'
      rw [latch]
      by_cases here : eu' = eu ∧ s' = s
      · rw [if_pos here, here.1, here.2]
        exact .inl same
      · rw [if_neg here]
        exact .inl (.refl _)
  have rob : o'.rob = o.rob := by rw [← result]; rfl
  have front : o'.latchIdRn = o.latchIdRn ∧ o'.latchIfId = o.latchIfId := by
    rw [← result]
    exact ⟨rfl, rfl⟩
  apply Ok.of_slots inv
  · rw [rob]
    exact ok.decoded
  · rw [front.1]
    exact ok.idRn
  · rw [front.2]
    exact ok.ifId
  · rw [front.2]
    exact ok.inOrder
  · intro t live
    by_cases here : EU.lsu = eu ∧ t = s
    · obtain ⟨unit, rfl⟩ := here
      exact slot unit.symm live
    · have sameLatch : o'.latch .lsu t = o.latch .lsu t := by rw [latch, if_neg here]
      have before : o.Live .lsu t := ⟨sameLatch ▸ live.valid, sameLatch ▸ live.kept⟩
      apply (ok.slotOk before).congr sameLatch
      unfold slotEntry
      rw [sameLatch, rob]

theorem Ok.delay (ok : o.Ok) {s : Fin 2} (addressed : o.Addressed s) (absent : (o.latch .lsu s).mshrIdx = none) :
    (o.setLatch .lsu s { o.latch .lsu s with cyclesRem := -2 }).Ok := by
  refine ok.visit (l := { o.latch .lsu s with cyclesRem := -2 }) o.mshr ⟨rfl, rfl, rfl, rfl, rfl, rfl⟩ fun _ _ => ?_
  generalize result : ({ o with mshr := o.mshr } : OOOState).setLatch .lsu s { o.latch .lsu s with cyclesRem := -2 } = o'
  have latch : o'.latch .lsu s = { o.latch .lsu s with cyclesRem := -2 } := by
    rw [← result, latch_setLatch, if_pos ⟨rfl, rfl⟩]
  have rob : o'.rob = o.rob := by rw [← result]; rfl
  constructor
  · intro m missed
    rw [latch] at missed
    cases absent.symm.trans missed
  · intro _ _
    refine ⟨addressed.congr (by rw [latch]; exact ⟨rfl, rfl, rfl, rfl, rfl, rfl⟩) ?_, by rw [latch]⟩
    rw [slotEntry, rob, latch]
    rfl

theorem Ok.miss (ok : o.Ok) {s : Fin 2} (addressed : o.Addressed s)
    (cached : (o.slotEntry .lsu s).ir.memAddr < mmioBase) (mshr : MshrIdx → MSHREntry) (m : MshrIdx) :
    (({ o with mshr := mshr } : OOOState).setLatch .lsu s
      { o.latch .lsu s with mshrIdx := some m, cyclesRem := 0 }).Ok := by
  refine ok.visit (l := { o.latch .lsu s with mshrIdx := some m, cyclesRem := 0 }) mshr
    ⟨rfl, rfl, rfl, rfl, rfl, rfl⟩ fun _ _ => ?_
  generalize result : ({ o with mshr := mshr } : OOOState).setLatch .lsu s
    { o.latch .lsu s with mshrIdx := some m, cyclesRem := 0 } = o'
  have latch : o'.latch .lsu s = { o.latch .lsu s with mshrIdx := some m, cyclesRem := 0 } := by
    rw [← result, latch_setLatch, if_pos ⟨rfl, rfl⟩]
  have entry : o'.slotEntry .lsu s = o.slotEntry .lsu s := by
    rw [slotEntry, latch, ← result]
    rfl
  constructor
  · intro _ _
    exact ⟨addressed.congr (by rw [latch]; exact ⟨rfl, rfl, rfl, rfl, rfl, rfl⟩) (by rw [entry]), by rw [entry]; exact cached⟩
  · intro absent
    rw [latch] at absent
    cases absent

/-- A flushed slot is given up. -/
theorem Ok.discard (ok : o.Ok) {s : Fin 2} (mshr : MshrIdx → MSHREntry) (flushed : (o.latch .lsu s).flushed = true) :
    (({ o with mshr := mshr } : OOOState).dropLatch .lsu s).Ok := by
  generalize result : ({ o with mshr := mshr } : OOOState).dropLatch .lsu s = o'
  have latch : ∀ eu s', o'.latch eu s' =
      if eu = .lsu ∧ s' = s then { o.latch .lsu s with valid := false } else o.latch eu s' := by
    intro eu s'
    rw [← result]
    exact latch_dropLatch ..
  have inv : o'.Inv := by
    apply ok.inv.frame <;> try (subst result; exact rfl)
    · subst result
      exact fun _ _ => rfl
    · intro eu s'
      rw [latch]
      by_cases here : eu = .lsu ∧ s' = s
      · rw [if_pos here, here.1, here.2]
        exact .inr ⟨.inr flushed, .inl rfl, rfl⟩
      · rw [if_neg here]
        exact .inl (.refl _)
  apply ok.keep inv
  · subst result
    exact fun _ valid => ⟨valid, rfl, rfl⟩
  · subst result
    rfl
  · subst result
    rfl
  · intro t live
    rw [latch, if_neg]
    rintro ⟨_, rfl⟩
    have valid := live.valid
    rw [latch, if_pos ⟨rfl, rfl⟩] at valid
    cases valid

/-- The address of a memory access. -/
theorem Ok.address (ok : o.Ok) {s : Fin 2} {run : IRInst → IRInst} (live : o.Live .lsu s)
    (first : (o.latch .lsu s).mshrIdx = none ∧ (o.latch .lsu s).cyclesRem = -1)
    (executor : (o.slotEntry .lsu s).ir.execFn.pure = some run) :
    (o.setRob (o.latch .lsu s).robIdx
      { o.slotEntry .lsu s with ir := run (Engine.operands o (o.latch .lsu s)) }).Ok := by
  obtain ⟨kept, src1, src2⟩ := pure_sameInst (Engine.operands o (o.latch .lsu s)) executor
  have inst := (operands_sameInst o .lsu s).trans kept
  obtain ⟨immediate1, immediate2⟩ := ok.inv.immediates live
  have inv : (o.setRob (o.latch .lsu s).robIdx
      { o.slotEntry .lsu s with ir := run (Engine.operands o (o.latch .lsu s)) }).Inv := by
    apply ok.inv.setIr
    exact .inr ⟨inst.raw, inst.rs1, inst.rs2, .lsu, s, live.valid, live.kept, rfl, src1, src2⟩
  have other : ∀ i, i ≠ (o.latch .lsu s).robIdx → (o.setRob (o.latch .lsu s).robIdx
      { o.slotEntry .lsu s with ir := run (Engine.operands o (o.latch .lsu s)) }).rob i = o.rob i :=
    fun i different => setAt_of_ne different ..
  apply Ok.of_slots inv
  · intro i valid
    by_cases here : i = (o.latch .lsu s).robIdx
    · subst here
      rw [rob_setRob_self]
      obtain ⟨decoded, archRd⟩ := ok.decoded _ (ok.inv.live_entry live).1
      refine ⟨decoded.sameInst inst ?_ ?_, ?_⟩
      · exact fun absent => src1.trans (immediate1 absent)
      · exact fun absent => src2.trans (immediate2 absent)
      · exact archRd.trans (by rw [inst.raw]; rfl)
    · rw [other i here] at valid ⊢
      exact ok.decoded i valid
  · exact ok.idRn
  · exact ok.ifId
  · exact ok.inOrder
  · intro t liveT
    have before : o.Live .lsu t := ⟨liveT.valid, liveT.kept⟩
    by_cases here : t = s
    · subst here
      exact .fresh first.1 first.2
    · refine SlotOk.congr (ok.slotOk before) rfl ?_
      exact congrArg ROBEntry.ir (other _ fun shared => here (ok.inv.live_unique before live shared).2)

theorem Ok.issue (ok : o.Ok) {eu : EU} {s : Fin 2} {k : RsIdx} (empty : (o.latch eu s).valid = false)
    (chosen : o.selectIssue eu = some k) : (o.latchFromRs eu s k).Ok := by
  have latch : ∀ eu' s', (o.latchFromRs eu s k).latch eu' s' = if eu' = eu ∧ s' = s then
      { robIdx := (o.rs k).robIdx, physRd := (o.rs k).physRd, valid := true, cyclesRem := -1, mshrIdx := none,
        flushed := false, src1Val := (o.rs k).src1Val, src2Val := (o.rs k).src2Val } else o.latch eu' s' :=
    fun eu' s' => latch_setLatch ..
  apply Ok.of_slots (ok.inv.issue empty (selectIssue_readyMask chosen))
  · exact ok.decoded
  · exact ok.idRn
  · exact ok.ifId
  · exact ok.inOrder
  · intro t live
    by_cases here : EU.lsu = eu ∧ t = s
    · apply SlotOk.fresh
      · rw [latch, if_pos here]
      · rw [latch, if_pos here]
    · have sameLatch : (o.latchFromRs eu s k).latch .lsu t = o.latch .lsu t := by rw [latch, if_neg here]
      have before : o.Live .lsu t := ⟨sameLatch ▸ live.valid, sameLatch ▸ live.kept⟩
      apply (ok.slotOk before).congr sameLatch
      unfold slotEntry
      rw [sameLatch]
      rfl

theorem Ok.rename (ok : o.Ok) {n : Fin 2} {seq : Nat} {slot : RsIdx}
    (valid : (o.latchIdRn n).valid = true) (room : o.robCount < 32)
    (names : ((o.latchIdRn n).ir.rd.filter (· ≠ 0)).isSome = true → o.freelist.count ≠ 0)
    (renames : o.Renames (o.latchIdRn n).ir seq slot o') : o'.Ok := by
  have inv := ok.inv.rename renames room names
  have fetched := ok.idRn n valid
  have other : ∀ i, i ≠ o.robTail → o'.rob i = o.rob i := fun i different => by
    rw [renames.rob, setAt_of_ne different]
  apply Ok.of_slots inv
  · intro i validI
    by_cases here : i = o.robTail
    · subst here
      rw [renames.rob, setAt_self]
      exact ⟨fetched.decoded, fetched.rd⟩
    · rw [other i here] at validI ⊢
      exact ok.decoded i validI
  · rw [renames.latchIdRn]
    exact ok.idRn
  · rw [renames.latchIfId]
    exact ok.ifId
  · rw [renames.latchIfId]
    exact ok.inOrder
  · intro s live
    have before : o.Live .lsu s := ⟨renames.latch ▸ live.valid, renames.latch ▸ live.kept⟩
    apply (ok.slotOk before).congr (by rw [renames.latch])
    have occupied := (ok.inv.renamed.valid _).mp (ok.inv.live_entry before).1
    unfold slotEntry
    rw [renames.latch, other]
    intro tail
    rw [tail, ok.inv.renamed.tail, pos, age_add _ room] at occupied
    omega

end OOOState

namespace Engine

variable {σ β : Type} {vm : VMem σ} {cfg : OooConfig β} {e e' : Engine σ β}

/-! ## The back end -/

/-- The record a unit writes back belongs to the instruction in its slot. -/
theorem executed_sameInst {o : OOOState} {eu : EU} {s : Fin 2} {perf : Perf} {sys sys' : Sys} {ir : IRInst}
    (inv : o.Inv) (live : o.Live eu s) (run : irExecute perf (operands o (o.latch eu s)) sys = some (ir, sys')) :
    (o.slotEntry eu s).ir.SameInst ir ∧
      ((o.slotEntry eu s).ir.rs1 = none → ir.src1Val = (o.slotEntry eu s).ir.src1Val) ∧
      ((o.slotEntry eu s).ir.rs2 = none → ir.src2Val = (o.slotEntry eu s).ir.src2Val) := by
  obtain ⟨same, src1, src2⟩ := irExecute_sameInst run
  obtain ⟨immediate1, immediate2⟩ := inv.immediates live
  exact ⟨(OOOState.operands_sameInst o eu s).trans same, fun absent => src1.trans (immediate1 absent),
    fun absent => src2.trans (immediate2 absent)⟩

/-- A mispredicted instruction completes and everything newer is flushed. -/
theorem redirect_flushes {o : OOOState} {s : Fin 2} {perf : Perf} {sys sys' : Sys} {ir : IRInst} (ok : e.ooo.Ok)
    (live : e.ooo.Live .int s) (run : irExecute perf (operands e.ooo (e.ooo.latch .int s)) sys = some (ir, sys'))
    (completes : e.ooo.Completes .int s { e.ooo.slotEntry .int s with ir := ir, ready := true } ir.result o) :
    o.Ok ∧ o.Flushes (e.ooo.latch .int s).robIdx (o.flushAfter (e.ooo.latch .int s).robIdx) := by
  obtain ⟨inst, src1, src2⟩ := executed_sameInst ok.inv live run
  have done := ok.completes completes live ⟨rfl, rfl, rfl, rfl, rfl⟩ rfl inst src1 src2
  refine ⟨done, done.inv.flushes ?_⟩
  rw [completes.rob, setAt_self]
  exact (ok.inv.live_entry live).1

theorem BackStep.ok (step : e.BackStep vm cfg e') (ok : e.ooo.Ok) : e'.ooo.Ok := by
  have inv := ok.inv
  cases step with
  | note quiet => exact ok
  | timer mshr tick lines =>
      exact ok.same ⟨rfl, rfl, rfl, rfl, rfl, rfl, rfl, rfl, rfl, rfl, rfl, rfl⟩ rfl rfl
  | drain waiting written =>
      exact ok.same ⟨rfl, rfl, rfl, rfl, rfl, rfl, rfl, rfl, rfl, rfl, rfl, rfl⟩ rfl rfl
  | commit live ready ordered sound room stored checked =>
      rw [(commits_of_checked stored checked).ooo]
      exact ok.afterCommit live ready
  | exec bpred fault unit live run completes faulted resolved =>
      obtain ⟨inst, src1, src2⟩ := executed_sameInst inv live run
      exact ok.completes completes live ⟨rfl, rfl, rfl, rfl, rfl⟩ rfl
        ⟨inst.pc, inst.snpc, inst.raw, inst.rs1, inst.rs2, inst.imm, inst.execFn, inst.bpPredictedPc,
          inst.width, inst.blank⟩ src1 src2
  | redirect live run completes control wrong target =>
      obtain ⟨done, flushes⟩ := redirect_flushes ok live run completes
      have flushed := done.flushes flushes
      exact flushed.same ⟨rfl, rfl, rfl, rfl, rfl, rfl, rfl, rfl, rfl, rfl, rfl, rfl⟩ rfl rfl
  | count live => exact ok.visit e.ooo.mshr ⟨rfl, rfl, rfl, rfl, rfl, rfl⟩ nofun
  | discard mshr valid flushed lines filled => exact ok.discard _ flushed
  | address live first executor => exact ok.address live first executor
  | storeDone live computed store completes =>
      exact ok.completes completes live ⟨rfl, rfl, rfl, rfl, rfl⟩ rfl (.refl _) (fun _ => rfl) fun _ => rfl
  | delay addressed absent => exact ok.delay addressed absent
  | probe => exact ok
  | miss addressed cached missed line lines => exact ok.miss addressed cached _ _
  | loadFault addressed outside completes =>
      exact ok.completes completes addressed.live ⟨rfl, rfl, rfl, rfl, rfl⟩ rfl
        ⟨rfl, rfl, rfl, rfl, rfl, rfl, rfl, rfl, id, fun _ => rfl⟩ (fun _ => rfl) fun _ => rfl
  | fill addressed device mapped read completes =>
      exact ok.completes completes addressed.live ⟨rfl, rfl, rfl, rfl, rfl⟩ rfl
        ⟨rfl, rfl, rfl, rfl, rfl, rfl, rfl, rfl, id, fun _ => rfl⟩ (fun _ => rfl) fun _ => rfl
  | issue empty chosen => exact ok.issue empty chosen

/-! ## The front end -/

theorem FrontStep.ok (step : e.FrontStep vm cfg e') (ok : e.ooo.Ok) : e'.ooo.Ok := by
  cases step with
  | note => exact ok
  | rename valid inOrder alone room names renames =>
      have renamed := ok.rename valid room names renames
      refine renamed.front ⟨rfl, rfl, rfl, rfl, rfl, rfl, rfl, rfl, rfl, rfl, rfl, rfl⟩ ?_ renamed.ifId renamed.inOrder
      intro s validS
      rename_i n _ _
      by_cases here : s = n
      · subst here
        simp only [setAt_self] at validS
        cases validS
      · simp only [setAt_of_ne here] at validS ⊢
        exact ok.idRn s validS
  | compact consumed left =>
      refine ok.front ⟨rfl, rfl, rfl, rfl, rfl, rfl, rfl, rfl, rfl, rfl, rfl, rfl⟩ ?_ ok.ifId ok.inOrder
      intro s valid
      simp only at valid ⊢
      split at valid
      · next first =>
          rw [if_pos first]
          exact ok.idRn 1 left
      · cases valid
  | decode group consumed =>
      exact ok.front ⟨rfl, rfl, rfl, rfl, rfl, rfl, rfl, rfl, rfl, rfl, rfl, rfl⟩ ok.ifId
        (fun _ valid => absurd valid Bool.false_ne_true) fun second => absurd second Bool.false_ne_true
  | fetch inOrder mapped read answer =>
      rename_i s word _ _ _ _ _ _
      obtain ⟨fetched, pc, raw⟩ := irDecode_fetched e.cpu.gpr (word.setWidth 32) (truncPc e.ooo.fetchPc)
        (e.ooo.latchIfId s).ir
      refine ok.front ⟨rfl, rfl, rfl, rfl, rfl, rfl, rfl, rfl, rfl, rfl, rfl, rfl⟩ ok.idRn ?_ ?_
      · intro t valid
        simp only [setFetched] at valid ⊢
        by_cases here : t = s
        · rw [here, setAt_self]
          exact ⟨⟨fetched.decoded.snpc, fetched.decoded.fn, fetched.decoded.rs1, fetched.decoded.rs2,
            fetched.decoded.src1, fetched.decoded.src2, fetched.decoded.imm, fetched.decoded.width,
            fetched.decoded.blank⟩, fetched.rd, fetched.serializing, fetched.fault, fetched.itype, fetched.dnpc⟩
        · rw [setAt_of_ne here] at valid ⊢
          exact ok.ifId t valid
      · intro second
        simp only [setFetched] at second ⊢
        by_cases first : (0 : Fin 2) = s
        · rw [first, setAt_self]
        · rw [setAt_of_ne first, inOrder 0]
          exact decide_eq_true (Fin.pos_iff_ne_zero.mpr (Ne.symm first))
  | skip unmapped =>
      exact ok.same ⟨rfl, rfl, rfl, rfl, rfl, rfl, rfl, rfl, rfl, rfl, rfl, rfl⟩ rfl rfl
  | tick => exact ok

end Engine

end Sustemu
