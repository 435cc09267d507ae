import Sustemu.Ooo.Results
import Sustemu.Cpu.Reference

/-!
# The operands of completed instructions

Whatever the program does, a completed entry of the reorder buffer has run on
the operands that program order gives it: the destinations of older entries
where there are any, and committed registers elsewhere. At the head of the
buffer that is one step of the instruction set on the committed registers.
-/

set_option autoImplicit false

namespace Sustemu

open Lib

namespace OOOState

variable {o o' : OOOState} {i : RobIdx}

/-- The value of a register before slot `i` is there, and it is `value`. -/
def Provided (o : OOOState) (i : RobIdx) (source : Option Reg) (value : Word) : Prop :=
  ∀ a, source = some a →
    (a = 0 → value = 0) ∧ (a ≠ 0 → (o.prf (o.mapAt (o.pos i) a)).ready = true ∧ value = (o.prf (o.mapAt (o.pos i) a)).value)

/-- The entry has run on the operands of program order. -/
structure OperatedAt (o : OOOState) (i : RobIdx) : Prop where
  ran : (o.rob i).ir.Ran
  src1 : o.Provided i (o.rob i).ir.rs1 (o.rob i).ir.src1Val
  src2 : o.Provided i (o.rob i).ir.rs2 (o.rob i).ir.src2Val
  stored : (o.rob i).isStore = true → (o.rob i).ir.itype = .store → (o.rob i).storeData = (o.rob i).ir.src2Val

def Operated (o : OOOState) : Prop := ∀ i, (o.rob i).valid = true → (o.rob i).ready = true → o.OperatedAt i

theorem Captured.provided {source : Option Reg} {decoded value : Word} {tag : PReg}
    (captured : o.Captured (o.mapAt (o.pos i)) source decoded true value tag) : o.Provided i source value := by
  intro a register
  subst register
  unfold Captured at captured
  constructor
  · intro zero
    simp only [if_pos zero] at captured
    exact captured.2
  · intro nonzero
    simp only [if_neg nonzero] at captured
    obtain ⟨rfl, ready, same⟩ := captured
    exact ⟨ready.symm, same trivial⟩

/-- The operands of a live slot are provided. -/
theorem Inv.provided (inv : o.Inv) {eu : EU} {s : Fin 2} (live : o.Live eu s) :
    o.Provided (o.latch eu s).robIdx (o.slotEntry eu s).ir.rs1 (o.latch eu s).src1Val ∧
      o.Provided (o.latch eu s).robIdx (o.slotEntry eu s).ir.rs2 (o.latch eu s).src2Val := by
  have latched := inv.placed.latched _ _ live.valid live.kept
  obtain ⟨_, first⟩ := latched.src1
  obtain ⟨_, second⟩ := latched.src2
  exact ⟨first.provided, second.provided⟩

/-- Operands that program order provides are read from registers that have their values. -/
theorem reads_of_provided {ir : IRInst} {gpr : RegFile} (decoded : (o.rob i).ir.Decoded) (raw : ir.raw = (o.rob i).ir.raw)
    (src1 : o.Provided i (o.rob i).ir.rs1 ir.src1Val) (src2 : o.Provided i (o.rob i).ir.rs2 ir.src2Val)
    (regs : ∀ a, a ≠ 0 → (o.prf (o.mapAt (o.pos i) a)).ready = true →
      (o.prf (o.mapAt (o.pos i) a)).value = gpr.get a) : ir.ReadsFrom gpr := by
  have read : ∀ {source : Option Reg} {value : Word}, o.Provided i source value → ∀ r, source = some r →
      value = gpr.get r := by
    intro source value provided r register
    obtain ⟨zero, other⟩ := provided r register
    by_cases nothing : r = 0
    · rw [zero nothing, nothing, RegFile.get_zero]
    · obtain ⟨ready, same⟩ := other nothing
      rw [same, regs r nothing ready]
  refine ⟨fun r register => read src1 r ?_, fun r register => read src2 r ?_⟩
  · rw [decoded.rs1, ← register, raw]
  · rw [decoded.rs2, ← register, raw]

/-- The LSU gets words with the opcode of a load or a store. -/
theorem Inv.lsu_opcode (inv : o.Inv) {s : Fin 2} (live : o.Live .lsu s) :
    opcode7Of (o.slotEntry .lsu s).ir.raw = 0x03 ∨ opcode7Of (o.slotEntry .lsu s).ir.raw = 0x23 := by
  have unit := (inv.placed.latched _ _ live.valid live.kept).euType
  unfold classify at unit
  split at unit
  · next memory => exact memory
  · split at unit
    · cases unit
    · cases unit

theorem Inv.unit_of_opcode (inv : o.Inv) {eu : EU} {s : Fin 2} (live : o.Live eu s)
    (opcode : opcode7Of (o.slotEntry eu s).ir.raw = 0x03 ∨ opcode7Of (o.slotEntry eu s).ir.raw = 0x23) : eu = .lsu := by
  have unit : eu = classify (o.slotEntry eu s).ir.raw := (inv.placed.latched _ _ live.valid live.kept).euType
  unfold classify at unit
  rwa [if_pos opcode] at unit

/-! ## Survivors -/

/-- What a step leaves of the entries that are there after it. -/
structure Survives (o o' : OOOState) : Prop where
  inv : o'.Inv
  entries : ∀ j, (o'.rob j).valid = true → (o.rob j).valid = true → (o'.rob j).pending = (o.rob j).pending ∧
    ((o.rob j).ready = true → (o'.rob j).ready = true)
  maps : ∀ j, (o'.rob j).valid = true → (o.rob j).valid = true → o'.mapAt (o'.pos j) = o.mapAt (o.pos j)
  older : ∀ i j, (o'.rob i).valid = true → (o.rob i).valid = true → (o'.rob j).valid = true → o'.pos j < o'.pos i →
    (o.rob j).valid = true
  values : ∀ j a, (o.rob j).valid = true → a ≠ 0 → (o.prf (o.mapAt (o.pos j) a)).ready = true →
    (o'.prf (o.mapAt (o.pos j) a)).value = (o.prf (o.mapAt (o.pos j) a)).value

theorem Provided.survives {source : Option Reg} {value : Word} (provided : o.Provided i source value) (inv : o.Inv)
    (survives : o.Survives o') (before : (o.rob i).valid = true) (after : (o'.rob i).valid = true) :
    o'.Provided i source value := by
  intro a register
  obtain ⟨zero, other⟩ := provided a register
  refine ⟨zero, fun nonzero => ?_⟩
  obtain ⟨ready, same⟩ := other nonzero
  have maps := survives.maps i after before
  have within := (survives.inv.renamed.valid i).mp after
  rw [maps, survives.values i a before nonzero ready]
  refine ⟨?_, same⟩
  -- The register is committed, or an older entry that was complete provides it.
  rcases survives.inv.renamed.mapAt_origin (Nat.le_of_lt within) a with committed | ⟨j, r, valid, older, pending, _, fresh⟩
  · rw [← maps, committed]
    exact survives.inv.settled.committed a nonzero
  · have was := survives.older i j after before valid older
    obtain ⟨samePending, keeps⟩ := survives.entries j valid was
    rw [← maps, ← fresh, survives.inv.settled.inFlight j r valid pending]
    apply keeps
    rw [samePending] at pending
    rw [← inv.settled.inFlight j r was pending, fresh, maps]
    exact ready

/-- A step that completes at most some entries. -/
theorem Operated.survives (operated : o.Operated) (inv : o.Inv) (survives : o.Survives o')
    (entries : ∀ i, (o'.rob i).valid = true → (o'.rob i).ready = true →
      o'.OperatedAt i ∨ (o.rob i).valid = true ∧ (o.rob i).ready = true ∧ (o'.rob i).ir = (o.rob i).ir ∧
        (o'.rob i).storeData = (o.rob i).storeData) : o'.Operated := by
  intro i valid ready
  rcases entries i valid ready with new | ⟨was, completed, ir, data⟩
  · exact new
  · have before := operated i was completed
    refine ⟨by rw [ir]; exact before.ran, ?_, ?_, ?_⟩
    · rw [ir]
      exact before.src1.survives inv survives was valid
    · rw [ir]
      exact before.src2.survives inv survives was valid
    · unfold ROBEntry.isStore
      rw [ir, data]
      exact before.stored

theorem Survives.of_entries (inv : o'.Inv) (entries : ∀ j, (o.rob j).SameRename (o'.rob j))
    (ready : ∀ j, (o.rob j).ready = true → (o'.rob j).ready = true) (head : o'.robHead = o.robHead)
    (rrat : o'.rrat = o.rrat) (prf : o'.prf = o.prf) : o.Survives o' := by
  have maps : ∀ n, o'.mapAt n = o.mapAt n := fun n => mapAt_congr rrat head fun j _ => (entries j).pending
  refine ⟨inv, fun j _ _ => ⟨(entries j).pending, ready j⟩, ?_, ?_, ?_⟩
  · intro j _ _
    rw [maps, pos, head]
    rfl
  · intro i j _ _ valid _
    rwa [(entries j).valid] at valid
  · intro j a _ _ _
    rw [prf]

/-- Nothing changes in the reorder buffer and the registers. -/
theorem Operated.same (operated : o.Operated) (before : o.Inv) (after : o'.Inv) (rob : o'.rob = o.rob)
    (head : o'.robHead = o.robHead) (rrat : o'.rrat = o.rrat) (prf : o'.prf = o.prf) : o'.Operated := by
  refine operated.survives before (.of_entries after ?_ ?_ head rrat prf) ?_
  · intro j
    rw [rob]
    exact .refl _
  · intro j ready
    rwa [rob]
  · intro i valid ready
    rw [rob] at valid ready ⊢
    exact .inr ⟨valid, ready, rfl, rfl⟩

theorem Completes.survives {eu : EU} {s : Fin 2} {entry : ROBEntry} {result : Word}
    (completes : o.Completes eu s entry result o') (inv : o.Inv) (live : o.Live eu s)
    (same : (o.slotEntry eu s).SameRename entry) (ready : entry.ready = true) : o.Survives o' := by
  obtain ⟨validS, waits⟩ := inv.live_entry live
  have entries : ∀ j, (o.rob j).SameRename (o'.rob j) := by
    intro j
    rw [completes.rob]
    by_cases here : j = (o.latch eu s).robIdx
    · rw [here, setAt_self]
      exact same
    · rw [setAt_of_ne here]
      exact .refl _
  have maps : ∀ n, o'.mapAt n = o.mapAt n := fun n =>
    mapAt_congr completes.rrat completes.head fun j _ => (entries j).pending
  refine ⟨inv.completes completes live.valid live.kept same ready, ?_, ?_, ?_, ?_⟩
  · intro j _ _
    refine ⟨(entries j).pending, fun was => ?_⟩
    rw [completes.rob]
    by_cases here : j = (o.latch eu s).robIdx
    · rw [here, setAt_self]
      exact ready
    · rwa [setAt_of_ne here]
  · intro j _ _
    rw [maps, pos, completes.head]
    rfl
  · intro i j _ _ valid _
    rwa [(entries j).valid] at valid
  · intro j a valid nonzero readyTag
    have tag := inv.renamed.mapAt_ne_zero (Nat.le_of_lt ((inv.renamed.valid j).mp valid)) nonzero
    rw [completes.prf_of_ne tag]
    intro r pending same
    rw [same, inv.settled.inFlight _ r validS pending] at readyTag
    cases waits.symm.trans readyTag

theorem Flushes.survives {b : RobIdx} (flushes : o.Flushes b o') : o.Survives o' := by
  have head : o'.robHead = o.robHead := flushes.head
  have positions : ∀ j, o'.pos j = o.pos j := by
    intro j
    rw [pos, head]
    rfl
  have older : ∀ j, (o'.rob j).valid = true → o.pos j ≤ o.pos b := by
    intro j valid
    by_contra newer
    rw [flushes.newer j (by omega)] at valid
    cases valid
  refine ⟨flushes.inv, ?_, ?_, ?_, fun _ _ _ _ _ => flushes.value _⟩
  · intro j valid _
    rw [flushes.older j (older j valid)]
    exact ⟨rfl, id⟩
  · intro j valid _
    rw [positions]
    apply mapAt_congr flushes.rrat head
    intro k member
    have before : o.pos k < o.pos j := (mem_window_iff (age_lt o.robHead _).le).mp member
    rw [flushes.older k (Nat.le_trans (Nat.le_of_lt before) (older j valid))]
  · intro i j _ _ valid _
    rwa [flushes.older j (older j valid)] at valid

theorem afterCommit_survives (inv : o.Inv) (after : o.afterCommit.Inv) : o.Survives o.afterCommit := by
  have frame := o.afterCommit_frame
  have other : ∀ j, (o.afterCommit.rob j).valid = true → j ≠ o.robHead := by
    rintro j valid rfl
    rw [frame.rob, setAt_self] at valid
    cases valid
  have same : ∀ j, (o.afterCommit.rob j).valid = true → o.afterCommit.rob j = o.rob j := by
    intro j valid
    rw [frame.rob, setAt_of_ne (other j valid)]
  refine ⟨after, ?_, ?_, ?_, fun _ _ _ _ _ => frame.value _⟩
  · intro j valid _
    rw [same j valid]
    exact ⟨rfl, id⟩
  · intro j valid was
    have closer : o.pos j = o.afterCommit.pos j + 1 := by
      unfold pos
      rw [frame.head]
      exact age_succ_head (other j valid)
    have within := (inv.renamed.valid j).mp was
    rw [closer]
    exact mapAt_dropOldest inv.renamed.bounded frame.rob frame.head frame.rrat (by omega)
  · intro i j _ _ valid _
    rwa [same j valid] at valid

theorem Renames.survives {ir : IRInst} {seq : Nat} {slot : RsIdx} (renames : o.Renames ir seq slot o') (inv : o.Inv)
    (after : o'.Inv) (room : o.robCount < 32) (names : (ir.rd.filter (· ≠ 0)).isSome = true → o.freelist.count ≠ 0) :
    o.Survives o' := by
  have last : o.pos o.robTail = o.robCount := by
    unfold pos
    rw [inv.renamed.tail]
    exact age_add o.robHead room
  have others : ∀ j, o.pos j < o.robCount → o'.rob j = o.rob j := by
    intro j inside
    rw [renames.rob, setAt_of_ne]
    rintro rfl
    omega
  have positions : ∀ j, o'.pos j = o.pos j := by
    intro j
    rw [pos, renames.head]
    rfl
  refine ⟨after, ?_, ?_, ?_, ?_⟩
  · intro j _ was
    rw [others j ((inv.renamed.valid j).mp was)]
    exact ⟨rfl, id⟩
  · intro j _ was
    rw [positions]
    apply mapAt_congr renames.rrat renames.head
    intro k member
    have before : o.pos k < o.pos j := (mem_window_iff (age_lt o.robHead _).le).mp member
    have within := (inv.renamed.valid j).mp was
    rw [others k (by omega)]
  · intro i j _ was valid older
    rw [positions, positions] at older
    have within := (inv.renamed.valid i).mp was
    rwa [others j (by omega)] at valid
  · intro j a valid _ _
    rw [renames.prf_of_used inv.renamed names]
    exact fun free => inv.renamed.mapAt_not_free (Nat.le_of_lt ((inv.renamed.valid j).mp valid)) a free rfl

end OOOState

namespace Engine

variable {σ β : Type} {vm : VMem σ} {cfg : OooConfig β} {e e' : Engine σ β}

/-- An instruction that completes has run on the operands of its slot. -/
theorem completes_operated {eu : EU} {s : Fin 2} {entry : ROBEntry} {result : Word} {o : OOOState} (ok : e.ooo.Ok)
    (operated : e.ooo.Operated) (live : e.ooo.Live eu s) (completes : e.ooo.Completes eu s entry result o)
    (same : (e.ooo.slotEntry eu s).SameRename entry) (ready : entry.ready = true) (ran : entry.ir.Ran)
    (rs1 : entry.ir.rs1 = (e.ooo.slotEntry eu s).ir.rs1) (rs2 : entry.ir.rs2 = (e.ooo.slotEntry eu s).ir.rs2)
    (src1 : entry.ir.src1Val = (e.ooo.latch eu s).src1Val) (src2 : entry.ir.src2Val = (e.ooo.latch eu s).src2Val)
    (stored : entry.isStore = true → entry.ir.itype = .store → entry.storeData = entry.ir.src2Val) : o.Operated := by
  have survives := completes.survives ok.inv live same ready
  obtain ⟨first, second⟩ := ok.inv.provided live
  have valid := (ok.inv.live_entry live).1
  refine operated.survives ok.inv survives ?_
  intro i validI readyI
  by_cases here : i = (e.ooo.latch eu s).robIdx
  · subst here
    left
    have new : o.rob (e.ooo.latch eu s).robIdx = entry := by
      rw [completes.rob, setAt_self]
    refine ⟨by rw [new]; exact ran, ?_, ?_, by rw [new]; exact stored⟩
    · rw [new, rs1, src1]
      exact first.survives ok.inv survives valid validI
    · rw [new, rs2, src2]
      exact second.survives ok.inv survives valid validI
  · right
    rw [completes.rob, setAt_of_ne here] at validI readyI ⊢
    exact ⟨validI, readyI, rfl, rfl⟩

/-- An access that has its address has run. -/
theorem computed_ran {s : Fin 2} (computed : e.ooo.Computed s) : (e.ooo.slotEntry .lsu s).ir.Ran := by
  obtain ⟨run, executor, same⟩ := computed.done
  have executed : irExecute ⟨0, 0, 0, 0, 0, 0⟩ (e.ooo.slotEntry .lsu s).ir Sys.init =
      some ((e.ooo.slotEntry .lsu s).ir, Sys.init) := by
    unfold irExecute
    rw [executor]
    simp only
    rw [same]
  exact irExecute_ran executed

/-- What is filled in for an access other than a store. -/
theorem filled_ran {s : Fin 2} (ok : e.ooo.Ok) (addressed : e.ooo.Addressed s) (result : Word) (fault : Bool) :
    ({ (e.ooo.slotEntry .lsu s).ir with result := result, fault := fault } : IRInst).Ran := by
  have ran := computed_ran addressed.computed
  by_cases load : (e.ooo.slotEntry .lsu s).ir.itype = .load
  · exact ran.congr ⟨rfl, rfl, fun _ => ⟨rfl, rfl, fun _ => rfl⟩, fun other => absurd load other⟩ rfl rfl rfl rfl rfl rfl
  · have isMemory : (e.ooo.slotEntry .lsu s).ir.execFn.isMemory = true := by
      have fn : (e.ooo.slotEntry .lsu s).ir.execFn = _ := (ok.decoded _ (ok.inv.live_entry addressed.live).1).1.fn
      rw [fn]
      exact isMemory_of_opcode (ok.inv.lsu_opcode addressed.live)
    have kind := ran.itype
    have noStore := addressed.load
    rw [kind] at load noStore
    refine ⟨kind, fun run _ plain => ?_, ran.straight⟩
    exfalso
    change (e.ooo.slotEntry .lsu s).ir.execFn.itype.Plain = true at plain
    cases fn : (e.ooo.slotEntry .lsu s).ir.execFn <;> rw [fn] at isMemory load noStore plain <;>
      first | exact load rfl | exact noStore rfl | (cases isMemory; done) | cases plain

theorem executed_operated {eu : EU} {s : Fin 2} {perf : Perf} {sys sys' : Sys} {ir : IRInst} {fault : Bool} {o : OOOState}
    (ok : e.ooo.Ok) (operated : e.ooo.Operated) (unit : eu ≠ .lsu) (live : e.ooo.Live eu s)
    (run : irExecute perf (operands e.ooo (e.ooo.latch eu s)) sys = some (ir, sys'))
    (completes : e.ooo.Completes eu s
      { e.ooo.slotEntry eu s with ir := { ir with fault := ir.fault || fault }, ready := true } ir.result o) :
    o.Operated := by
  obtain ⟨same, src1, src2⟩ := irExecute_sameInst run
  have inst := (executed_sameInst ok.inv live run).1
  have ran : ({ ir with fault := ir.fault || fault } : IRInst).Ran := (irExecute_ran run).congr
    ⟨rfl, rfl, fun _ => ⟨rfl, rfl, fun _ => rfl⟩, fun _ _ _ => rfl⟩ rfl rfl rfl rfl rfl rfl
  refine completes_operated ok operated live completes ⟨rfl, rfl, rfl, rfl, rfl⟩ rfl ran inst.rs1 inst.rs2 src1 src2 ?_
  intro isStore
  have opcode : opcode7Of ir.raw = 0x23 := beq_iff_eq.mp isStore
  rw [inst.raw] at opcode
  exact absurd (ok.inv.unit_of_opcode live (.inr opcode)) unit

theorem BackStep.operated (step : e.BackStep vm cfg e') (ok : e.ooo.Ok) (operated : e.ooo.Operated) :
    e'.ooo.Operated := by
  have inv := ok.inv
  have after := (step.ok ok).inv
  cases step with
  | commit live ready ordered sound room stored checked =>
      rw [(commits_of_checked stored checked).ooo] at after ⊢
      refine operated.survives inv (OOOState.afterCommit_survives inv after) ?_
      intro i validI readyI
      have other : i ≠ e.ooo.robHead := by
        rintro rfl
        rw [e.ooo.afterCommit_frame.rob, setAt_self] at validI
        cases validI
      rw [e.ooo.afterCommit_frame.rob, setAt_of_ne other] at validI readyI ⊢
      exact .inr ⟨validI, readyI, rfl, rfl⟩
  | exec bpred fault unit live run completes faulted resolved =>
      exact executed_operated ok operated unit live run completes
  | redirect live run completes control wrong target =>
      rename_i s ir sys o bpred stats
      have unit : EU.int ≠ .lsu := nofun
      have completed : e.ooo.Completes .int s
          { e.ooo.slotEntry .int s with ir := { ir with fault := ir.fault || false }, ready := true } ir.result o := by
        simpa using completes
      have done := executed_operated ok operated unit live run completed
      have flushes := (redirect_flushes ok live run completes).2
      have flushed : (o.flushAfter (e.ooo.latch .int s).robIdx).Operated := by
        refine done.survives (redirect_flushes ok live run completes).1.inv flushes.survives ?_
        intro i validI readyI
        have older : o.pos i ≤ o.pos (e.ooo.latch .int s).robIdx := by
          by_contra newer
          rw [flushes.newer i (by omega)] at validI
          cases validI
        rw [flushes.older i older] at validI readyI ⊢
        exact .inr ⟨validI, readyI, rfl, rfl⟩
      exact flushed.same flushes.inv after rfl rfl rfl rfl
  | address live first executor =>
      rename_i s run
      obtain ⟨valid, waits⟩ := inv.live_entry live
      have here : ∀ j, j ≠ (e.ooo.latch .lsu s).robIdx → (e.ooo.setRob (e.ooo.latch .lsu s).robIdx
          { e.ooo.slotEntry .lsu s with ir := run (operands e.ooo (e.ooo.latch .lsu s)) }).rob j = e.ooo.rob j :=
        fun j other => setAt_of_ne other ..
      refine operated.survives inv (.of_entries after ?_ ?_ rfl rfl rfl) ?_
      · intro j
        by_cases slot : j = (e.ooo.latch .lsu s).robIdx
        · subst slot
          rw [OOOState.rob_setRob_self]
          exact ⟨rfl, rfl, rfl, rfl, rfl⟩
        · rw [here j slot]
          exact .refl _
      · intro j ready
        by_cases slot : j = (e.ooo.latch .lsu s).robIdx
        · subst slot
          cases waits.symm.trans ready
        · rwa [here j slot]
      · intro i validI readyI
        by_cases slot : i = (e.ooo.latch .lsu s).robIdx
        · subst slot
          rw [OOOState.rob_setRob_self] at readyI
          cases waits.symm.trans readyI
        · rw [here i slot] at validI readyI ⊢
          exact .inr ⟨validI, readyI, rfl, rfl⟩
  | storeDone live computed store completes =>
      refine completes_operated ok operated live completes ⟨rfl, rfl, rfl, rfl, rfl⟩ rfl (computed_ran computed) rfl rfl
        computed.src1 computed.src2 fun _ _ => rfl
  | loadFault addressed outside completes =>
      refine completes_operated ok operated addressed.live completes ⟨rfl, rfl, rfl, rfl, rfl⟩ rfl
        (filled_ran ok addressed _ _) rfl rfl addressed.computed.src1 addressed.computed.src2 ?_
      exact fun _ store => absurd store addressed.load
  | fill addressed device mapped read completes =>
      refine completes_operated ok operated addressed.live completes ⟨rfl, rfl, rfl, rfl, rfl⟩ rfl
        (filled_ran ok addressed _ _) rfl rfl addressed.computed.src1 addressed.computed.src2 ?_
      exact fun _ store => absurd store addressed.load
  | _ => exact operated.same inv after rfl rfl rfl rfl

theorem FrontStep.operated (step : e.FrontStep vm cfg e') (ok : e.ooo.Ok) (operated : e.ooo.Operated) :
    e'.ooo.Operated := by
  have inv := ok.inv
  have after := (step.ok ok).inv
  cases step with
  | rename valid inOrder alone room names renames =>
      rename_i n slot o
      have invO := inv.rename renames room names
      have renamed : o.Operated := by
        refine operated.survives inv (renames.survives inv invO room names) ?_
        intro i validI readyI
        rw [renames.rob] at validI readyI ⊢
        by_cases last : i = e.ooo.robTail
        · rw [last, setAt_self] at readyI
          cases readyI
        · rw [setAt_of_ne last] at validI readyI ⊢
          exact .inr ⟨validI, readyI, rfl, rfl⟩
      exact renamed.same invO after rfl rfl rfl rfl
  | _ => exact operated.same inv after rfl rfl rfl rfl

end Engine

end Sustemu
