import Sustemu.Ooo.Operands
import Sustemu.Ooo.Refinement

/-!
# Divisions on speculative paths

A unit hands every instruction that reaches it to `ir_execute`, also those
behind a branch that will turn out mispredicted. On the path of the functional
engine the operands are the functional engine's, so that a division is defined
whenever it is defined there. On a mispredicted path it need not be.
-/

set_option autoImplicit false

namespace Sustemu

open Lib Engine Relation

namespace Engine

variable {σ β : Type} {vm : VMem σ} {cfg : OooConfig β} {e e' : Engine σ β} {Rep : World σ → Flat → Prop} {f : Flat}

/-! ## Calls of `ir_execute` -/

/-- The next visit of the slot calls `ir_execute`. -/
def Calls (o : OOOState) (eu : EU) (s : Fin 2) : Prop :=
  (o.latch eu s).valid = true ∧ (o.slotEntry eu s).valid = true ∧
    match eu with
    | .int => True
    | .mul => if (o.latch .mul s).cyclesRem = -1 then mulLat (o.slotEntry .mul s).ir.raw ≤ 1
        else (o.latch .mul s).cyclesRem ≤ 0
    | .lsu => (o.latch .lsu s).flushed = false ∧ (o.latch .lsu s).mshrIdx = none ∧ (o.latch .lsu s).cyclesRem = -1

instance (o : OOOState) (eu : EU) (s : Fin 2) : Decidable (Calls o eu s) := by
  unfold Calls
  cases eu <;> infer_instance

/-- Cycle `k` of a run visits slot `s` of `eu` in state `e`. -/
def VisitsIn (vm : VMem σ) (cfg : OooConfig β) (start : Engine σ β) (k : Nat) (eu : EU) (s : Fin 2) (e : Engine σ β) : Prop :=
  ∃ e₀ e₁ e₂ before after, run vm cfg k start = some e₀ ∧ e₀.drainStoreBuf vm cfg = some e₁ ∧
    e₁.stageCommit vm cfg = some e₂ ∧ eu.slots = before ++ s :: after ∧
    match eu with
    | .int => unit (intSlot vm cfg) before { e₂ with ooo := e₂.ooo.mshrTick } = some e
    | .mul => ∃ e₃, unitInt vm cfg { e₂ with ooo := e₂.ooo.mshrTick } = some e₃ ∧ unit (mulSlot vm) before e₃ = some e
    | .lsu => ∃ e₃ e₄, unitInt vm cfg { e₂ with ooo := e₂.ooo.mshrTick } = some e₃ ∧ unitMul vm e₃ = some e₄ ∧
        unit (lsuSlot vm) before e₄ = some e

/-- A call of `ir_execute` in cycle `k` of a run, with the state in which it is made. -/
structure CallsIn (vm : VMem σ) (cfg : OooConfig β) (start : Engine σ β) (k : Nat) (eu : EU) (s : Fin 2)
    (e : Engine σ β) : Prop where
  visits : VisitsIn vm cfg start k eu s e
  calls : Calls e.ooo eu s

/-- What every step keeps holds at each visit of a run. -/
theorem VisitsIn.keeps {P : Engine σ β → Prop} (back : ∀ e e', e.ooo.Ok → P e → e.BackStep vm cfg e' → P e')
    (front : ∀ e e', e.ooo.Ok → P e → e.FrontStep vm cfg e' → P e') {start : Engine σ β} (ok : start.ooo.Ok)
    (tidy : start.ooo.Tidy) (holds : P start) {k : Nat} {eu : EU} {s : Fin 2} (visits : VisitsIn vm cfg start k eu s e) :
    e.ooo.Ok ∧ P e := by
  obtain ⟨e₀, e₁, e₂, before, after, ran, drained, committed, _, rest⟩ := visits
  obtain ⟨ok₀, _, holds₀⟩ := run_keeps back front ok tidy holds ran
  suffices steps : ReflTransGen (BackStep vm cfg) e₀ e from
    ⟨backSteps_ok steps ok₀, backSteps_keep back steps ok₀ holds₀⟩
  have steps := ((drainStoreBuf_steps drained).trans (stageCommit_steps committed)).tail (mshrTick_step e₂)
  have int : ∀ {slots : List (Fin 2)} {e₃ : Engine σ β}, unit (intSlot vm cfg) slots { e₂ with ooo := e₂.ooo.mshrTick } = some e₃ →
      ReflTransGen (BackStep vm cfg) e₀ e₃ := fun done =>
    steps.trans (unit_steps (fun _ _ _ ok => intSlot_steps ok) (backSteps_ok steps ok₀) done)
  have mul : ∀ {slots : List (Fin 2)} {e₃ e₄ : Engine σ β}, unitInt vm cfg { e₂ with ooo := e₂.ooo.mshrTick } = some e₃ →
      unit (mulSlot vm) slots e₃ = some e₄ → ReflTransGen (BackStep vm cfg) e₀ e₄ := fun first done =>
    (int first).trans (unit_steps (fun _ _ _ ok => mulSlot_steps ok) (backSteps_ok (int first) ok₀) done)
  cases eu with
  | int => exact int rest
  | mul =>
      obtain ⟨e₃, first, done⟩ := rest
      exact mul first done
  | lsu =>
      obtain ⟨e₃, e₄, first, second, done⟩ := rest
      exact (mul first second).trans (unit_steps (fun _ _ _ ok => lsuSlot_steps ok) (backSteps_ok (mul first second) ok₀) done)

/-- The slot that calls is live. -/
theorem Calls.live {eu : EU} {s : Fin 2} (calls : Calls e.ooo eu s) (ok : e.ooo.Ok) : e.ooo.Live eu s := by
  obtain ⟨valid, _, rest⟩ := calls
  cases eu with
  | int => exact live_of_valid ok.inv (by decide) valid
  | mul => exact live_of_valid ok.inv (by decide) valid
  | lsu => exact ⟨valid, rest.1⟩

/-! ## The path of the functional engine -/

variable {N : Nat} {t : Execution vm N}

/-- The instructions up to entry `i` are the next ones of the functional engine, which has the registers of the last
commit, and results that do not come from registers are the functional engine's too. -/
structure OnPath (t : Execution vm N) (e : Engine σ β) (i : RobIdx) : Prop where
  regs : ∀ a, a ≠ 0 → e.ooo.committedValue a = (t.state (commits e.log).length).cpu.gpr.get a
  words : ∀ j, (e.ooo.rob j).valid = true → e.ooo.pos j ≤ e.ooo.pos i → e.index j < N ∧
    (e.ooo.rob j).ir.pc = (t.inst (e.index j)).pc ∧ (e.ooo.rob j).ir.raw = (t.inst (e.index j)).raw
  inputs : ∀ j, (e.ooo.rob j).valid = true → e.ooo.pos j < e.ooo.pos i → (e.ooo.rob j).ready = true →
    (e.ooo.rob j).dest.isSome = true → (t.inst (e.index j)).itype = .load ∨ (t.inst (e.index j)).itype.Plain = false →
    (e.ooo.rob j).ir.result = (t.inst (e.index j)).result

section Path

variable (ok : e.ooo.Ok) (operated : e.ooo.Operated) (resulted : e.ooo.Resulted) {i : RobIdx}
  (valid : (e.ooo.rob i).valid = true) (path : e.OnPath t i)

/-- The slot at a position. -/
theorem index_slot {n : Nat} (inside : n < 32) :
    e.ooo.pos (e.ooo.robHead + Fin.ofNat 32 n) = n ∧ e.index (e.ooo.robHead + Fin.ofNat 32 n) = (commits e.log).length + n := by
  have position : e.ooo.pos (e.ooo.robHead + Fin.ofNat 32 n) = n := age_add _ inside
  exact ⟨position, by rw [index, position]⟩

include path ok in
/-- An entry on the path that has run on the registers of the functional engine has its result. -/
theorem OnPath.result {j : RobIdx} (validJ : (e.ooo.rob j).valid = true) (older : e.ooo.pos j < e.ooo.pos i)
    (ready : (e.ooo.rob j).ready = true) (ran : (e.ooo.rob j).ir.Ran)
    (reads : (e.ooo.rob j).ir.ReadsFrom (t.state (e.index j)).cpu.gpr) {a : Reg} (dest : (e.ooo.rob j).dest = some a) :
    (t.inst (e.index j)).rd.filter (· ≠ 0) = some a ∧ (e.ooo.rob j).ir.result = (t.inst (e.index j)).result := by
  obtain ⟨inside, pc, raw⟩ := path.words j validJ (Nat.le_of_lt older)
  obtain ⟨decodedJ, archRd⟩ := ok.decoded j validJ
  obtain ⟨ranT, decoded, readsT, _, rd⟩ := execOnce_ran (t.step _ inside)
  have named : (t.inst (e.index j)).rd.filter (· ≠ 0) = some a := by
    rw [← dest, ROBEntry.dest, archRd, raw, rd]
  refine ⟨named, ?_⟩
  by_cases outside : (t.inst (e.index j)).itype = .load ∨ (t.inst (e.index j)).itype.Plain = false
  · exact path.inputs j validJ older ready (by rw [dest]; rfl) outside
  · simp only [not_or, Bool.not_eq_false] at outside
    refine ranT.sameResult ran decoded decodedJ pc raw readsT reads ?_ outside.2 outside.1
    rw [← rd]
    intro none
    rw [none] at named
    cases named

include ok operated resulted valid path in
/-- A register that is ready before entry `i` has the value of the functional engine. -/
theorem OnPath.register {n : Nat} (older : n ≤ e.ooo.pos i) {a : Reg} (nonzero : a ≠ 0)
    (ready : (e.ooo.prf (e.ooo.mapAt n a)).ready = true) :
    (e.ooo.prf (e.ooo.mapAt n a)).value = (t.state ((commits e.log).length + n)).cpu.gpr.get a := by
  induction n generalizing a with
  | zero =>
      rw [OOOState.mapAt_zero]
      exact path.regs a nonzero
  | succ n ih =>
      have validJ := (older_entry ok valid older).1
      obtain ⟨position, number⟩ := index_slot (e := e) (show n < 32 from Nat.lt_of_lt_of_le older (age_lt _ _).le)
      obtain ⟨inside, pc, raw⟩ := path.words _ validJ (by omega)
      obtain ⟨decodedJ, archRd⟩ := ok.decoded _ validJ
      have step := t.step _ inside
      have rd := (execOnce_ran step).2.2.2.2
      have dest : (e.ooo.rob (e.ooo.robHead + Fin.ofNat 32 n)).dest =
          (t.inst (e.index (e.ooo.robHead + Fin.ofNat 32 n))).rd.filter (· ≠ 0) := by
        rw [ROBEntry.dest, archRd, raw, rd]
      have next : (t.state ((commits e.log).length + (n + 1))).cpu.gpr =
          irWriteback (t.inst (e.index (e.ooo.robHead + Fin.ofNat 32 n))) (t.state ((commits e.log).length + n)).cpu.gpr := by
        rw [← Nat.add_assoc, ← number, (execOnce_executedFrom step).2]
      rw [OOOState.mapAt_succ] at ready ⊢
      rw [next]
      cases pending : (e.ooo.rob (e.ooo.robHead + Fin.ofNat 32 n)).pending with
      | none =>
          rw [pending, applyRename] at ready
          have absent : (e.ooo.rob (e.ooo.robHead + Fin.ofNat 32 n)).dest = none := by
            have shape := (ok.inv.renamed.shape _ validJ).1
            rw [pending] at shape
            exact Option.isNone_iff_eq_none.mp (Option.isSome_eq_false_iff.mp shape.symm)
          rw [applyRename, irWriteback_blank (dest.symm.trans absent)]
          exact ih (by omega) nonzero ready
      | some r =>
          have target := (OOOState.pending_dest pending).1
          rw [pending, applyRename] at ready
          rw [applyRename, (irWriteback_dest (dest.symm.trans target) _).1, RegFile.get_set, if_neg nonzero]
          by_cases same : a = r.target
          · subst same
            rw [if_pos rfl]
            rw [setAt_self] at ready ⊢
            rw [ok.inv.settled.inFlight _ r validJ pending] at ready
            rw [resulted _ r validJ ready pending]
            obtain ⟨ran, src1, src2, _⟩ := operated _ validJ ready
            have reads : IRInst.ReadsFrom _ (t.state (e.index (e.ooo.robHead + Fin.ofNat 32 n))).cpu.gpr := OOOState.reads_of_provided decodedJ rfl src1 src2 fun b nonzeroB readyB => by
                rw [position] at readyB ⊢
                rw [number]
                exact ih (by omega) nonzeroB readyB
            exact (path.result ok validJ (by omega) ready ran reads target).2
          · rw [if_neg same]
            rw [setAt_of_ne same] at ready ⊢
            exact ih (by omega) nonzero ready

include ok operated resulted path in
/-- The record that a call on the path executes has a defined quotient if the functional engine's has. -/
theorem OnPath.divDefined {eu : EU} {s : Fin 2} (live : e.ooo.Live eu s) (here : i = (e.ooo.latch eu s).robIdx) :
    (operands e.ooo (e.ooo.latch eu s)).divDefined = (t.inst (e.index i)).divDefined := by
  subst here
  have valid := (ok.inv.live_entry live).1
  obtain ⟨inside, _, raw⟩ := path.words _ valid (Nat.le_refl _)
  obtain ⟨_, decoded, reads, _, _⟩ := execOnce_ran (t.step _ inside)
  obtain ⟨src1, src2⟩ := ok.inv.provided live
  have decodedHere := (ok.decoded _ valid).1
  have readsHere : (operands e.ooo (e.ooo.latch eu s)).ReadsFrom (t.state (e.index (e.ooo.latch eu s).robIdx)).cpu.gpr :=
    OOOState.reads_of_provided decodedHere rfl src1 src2 fun a nonzero ready =>
      path.register ok operated resulted valid (Nat.le_refl _) nonzero ready
  refine decoded.sameDivision ?_ raw reads readsHere
  change (e.ooo.rob (e.ooo.latch eu s).robIdx).ir.execFn = _
  rw [decodedHere.fn, decoded.fn, raw]

end Path

/-- What every state of a run has, whatever the program does. -/
theorem VisitsIn.operated {cpu : CPUState} {world : World σ} {bpred : β} {k : Nat} {eu : EU} {s : Fin 2}
    (visits : VisitsIn vm cfg (Engine.init cfg cpu world bpred) k eu s e) :
    e.ooo.Ok ∧ e.ooo.Operated ∧ e.ooo.Resulted := by
  have initial : (Engine.init cfg cpu world bpred).ooo.Operated ∧ (Engine.init cfg cpu world bpred).ooo.Resulted :=
    ⟨fun _ valid => (nomatch valid), nofun⟩
  exact visits.keeps (P := fun e => e.ooo.Operated ∧ e.ooo.Resulted)
    (fun _ _ ok holds step => ⟨step.operated ok holds.1, step.resulted ok holds.2⟩)
    (fun _ _ ok holds step => ⟨step.operated ok holds.1, step.resulted ok holds.2⟩)
    (oooInit_ok cpu) (oooInit_tidy cpu) initial

/-- No unit divides by zero or overflows a quotient in any run, if the functional engine does not and every division
that reaches a unit is on the path of the functional engine. -/
theorem speculation_defined (vm : VMem σ) (cfg : OooConfig β) (cpu : CPUState) (world : World σ) (bpred : β) (N : Nat)
    (t : Execution vm N) (defined : ∀ n, n < N → (t.inst n).divDefined = true) (k : Nat) (eu : EU) (s : Fin 2)
    (e : Engine σ β) (call : CallsIn vm cfg (Engine.init cfg cpu world bpred) k eu s e)
    (path : (e.ooo.slotEntry eu s).ir.execFn.divides = true → e.OnPath t (e.ooo.latch eu s).robIdx) :
    (operands e.ooo (e.ooo.latch eu s)).divDefined = true := by
  cases division : (e.ooo.slotEntry eu s).ir.execFn.divides with
  | false => exact IRInst.divDefined_of_other division
  | true =>
      obtain ⟨ok, operated, resulted⟩ := call.visits.operated
      have live := call.calls.live ok
      have inside := ((path division).words _ (ok.inv.live_entry live).1 (Nat.le_refl _)).1
      rw [(path division).divDefined ok operated resulted live rfl]
      exact defined _ inside

/-- `div x7, x5, x6`, then `fence` and a jump to itself. -/
def divisionProgram : List Raw := [0x0262c3b3, 0x0000000f, 0x0000006f]

/-- Six in `x5` and two in `x6`. -/
def divisionCpu : CPUState := ⟨(RegFile.empty.set 5 6).set 6 2, mbase⟩

/-- The functional engine divides six by two, and so does the MUL unit after 24 cycles. -/
theorem speculation_defined_six : ∃ e, CallsIn (hierarchy (.plain 1)) .solo
      (Engine.init .solo divisionCpu ⟨Sys.init, MemState.init (image divisionProgram) ()⟩ ()) 24 .mul 0 e ∧
    (operands e.ooo (e.ooo.latch .mul 0)).execFn = .div ∧ (operands e.ooo (e.ooo.latch .mul 0)).divDefined = true := by
  have machine : Unprotected 1 ⟨image divisionProgram, ∅⟩
      ⟨divisionCpu, ⟨Sys.init, MemState.init (image divisionProgram) ()⟩⟩ :=
    ⟨⟨init_represents _ _ _, fun _ => rfl⟩, rfl, rfl⟩
  have inst : (flatInst (image divisionProgram) divisionCpu).pc = mbase ∧
      (flatInst (image divisionProgram) divisionCpu).raw = 0x0262c3b3 ∧
      (flatInst (image divisionProgram) divisionCpu).divDefined = true := by decide +kernel
  obtain ⟨m, step, _⟩ := machine.next rfl (by decide +kernel)
  have t : ∃ t : Execution (hierarchy (.plain 1)) 1, (t.state 0).cpu = divisionCpu ∧
      t.inst 0 = flatInst (image divisionProgram) divisionCpu := by
    refine ⟨⟨fun _ => .zero,
      fun n => if n = 0 then ⟨divisionCpu, ⟨Sys.init, MemState.init (image divisionProgram) ()⟩⟩ else m,
      fun _ => flatInst (image divisionProgram) divisionCpu, ?_⟩, rfl, rfl⟩
    intro n first
    obtain rfl : n = 0 := by omega
    exact step
  obtain ⟨t, start, first⟩ := t
  have reached : (run (hierarchy (.plain 1)) .solo 24
      (Engine.init .solo divisionCpu ⟨Sys.init, MemState.init (image divisionProgram) ()⟩ ())).any (fun e₀ =>
        (e₀.drainStoreBuf (hierarchy (.plain 1)) .solo).any fun e₁ =>
          (e₁.stageCommit (hierarchy (.plain 1)) .solo).any fun e₂ =>
            (unitInt (hierarchy (.plain 1)) .solo { e₂ with ooo := e₂.ooo.mshrTick }).any fun e =>
              decide (Calls e.ooo .mul 0 ∧ (operands e.ooo (e.ooo.latch .mul 0)).execFn = .div ∧
                commits e.log = [] ∧ (∀ a, e.ooo.committedValue a = divisionCpu.gpr.get a) ∧
                ∀ j, e.ooo.pos j ≤ e.ooo.pos (e.ooo.latch .mul 0).robIdx →
                  e.ooo.pos j = 0 ∧ (e.ooo.rob j).ir.pc = mbase ∧ (e.ooo.rob j).ir.raw = 0x0262c3b3)) = true := by
    decide +kernel
  obtain ⟨e₀, ran, rest⟩ := (Option.any_eq_true _ _).mp reached
  obtain ⟨e₁, drained, rest⟩ := (Option.any_eq_true _ _).mp rest
  obtain ⟨e₂, committed, rest⟩ := (Option.any_eq_true _ _).mp rest
  obtain ⟨e, int, holds⟩ := (Option.any_eq_true _ _).mp rest
  obtain ⟨calls, fn, nothing, regs, alone⟩ := of_decide_eq_true holds
  have call : CallsIn (hierarchy (.plain 1)) .solo
      (Engine.init .solo divisionCpu ⟨Sys.init, MemState.init (image divisionProgram) ()⟩ ()) 24 .mul 0 e :=
    ⟨⟨e₀, e₁, e₂, [], [], ran, drained, committed, rfl, e, int, rfl⟩, calls⟩
  have index : ∀ j, e.ooo.pos j ≤ e.ooo.pos (e.ooo.latch .mul 0).robIdx → e.index j = 0 := by
    intro j older
    rw [index, nothing, (alone j older).1]
    rfl
  refine ⟨e, call, fn, ?_⟩
  refine Engine.speculation_defined (hierarchy (.plain 1)) .solo divisionCpu _ () 1 t ?_ 24 .mul 0 e call fun _ => ⟨?_, ?_, ?_⟩
  · intro n inside
    obtain rfl : n = 0 := by omega
    rw [first]
    exact inst.2.2
  · intro a _
    rw [regs a, nothing]
    exact congrArg (fun cpu : CPUState => cpu.gpr.get a) start.symm
  · intro j _ older
    rw [index j older, first, (alone j older).2.1, (alone j older).2.2]
    exact ⟨by decide, inst.1.symm, inst.2.1.symm⟩
  · intro j _ older
    have position := (alone j (Nat.le_of_lt older)).1
    have own := (alone (e.ooo.latch .mul 0).robIdx (Nat.le_refl _)).1
    omega

/-! ## Standard programs -/

section Standard

variable {t : Trace vm} (ok : e.ooo.Ok) (refines : e.Refines t)

include ok refines in
/-- For a standard program the program counters decide whether an entry is on the path. -/
theorem Refines.onPath {i : RobIdx}
    (pcs : ∀ j, (e.ooo.rob j).valid = true → e.ooo.pos j ≤ e.ooo.pos i → (e.ooo.rob j).ir.pc = (t.inst (e.index j)).pc)
    (known : ∀ n, t.Known f n) : e.OnPath (t.upto (e.index i + 1)) i := by
  have good : ∀ j, (e.ooo.rob j).valid = true → e.ooo.pos j ≤ e.ooo.pos i →
      (e.ooo.rob j).node.Good (t.inst (e.index j)) := by
    intro j validJ older
    have reached : e.Reached t j := by
      apply matches_of_get
      intro position x found
      have front : position < e.ooo.pos j := by
        have inside := (List.getElem?_eq_some_iff.mp found).1
        rwa [OOOState.before, List.length_map, length_window] at inside
      obtain ⟨validX, same⟩ := older_entry ok validJ front
      cases same.symm.trans found
      obtain ⟨place, number⟩ := index_slot (e := e) (show position < 32 from Nat.lt_of_lt_of_le front (age_lt _ _).le)
      change (e.ooo.rob _).ir.pc = _
      rw [pcs _ validX (by omega), number]
      exact (known _).pc
    have nodes := refines.nodes
    rw [OOOState.path_split ok.inv.renamed validJ] at nodes
    have length : (e.ooo.before j).length = e.ooo.pos j := by
      unfold OOOState.before
      rw [List.length_map, length_window]
    have behind := ((tracks_append ..).mp nodes).2 reached
    rw [length] at behind
    refine (behind ?_).1
    change (e.ooo.rob j).ir.pc = _
    rw [pcs j validJ older]
    exact (known _).pc
  refine ⟨refines.regs, ?_, ?_⟩
  · intro j validJ older
    refine ⟨?_, pcs j validJ older, (good j validJ older).raw⟩
    change (commits e.log).length + e.ooo.pos j < (commits e.log).length + e.ooo.pos i + 1
    omega
  · intro j validJ older ready dest _
    have goodJ := good j validJ (Nat.le_of_lt older)
    rw [(known _).dest ok validJ goodJ.raw] at dest
    exact (goodJ.done ready).result dest

end Standard

/-- In every single-core run of a standard program a division is defined if the instructions in flight up to it have the
program counters of the functional engine. -/
theorem speculation_defined_ordinary {δ : Type} (devices : Devices δ) (cfg : OooConfig β)
    (targets : ∀ state pc raw, (cfg.bpred.predict state pc raw).1.taken = true →
      (cfg.bpred.predict state pc raw).1.btbHit = true → (cfg.bpred.predict state pc raw).1.target ≠ 0)
    (cpu : CPUState) (sys : Sys) (hart : sys.hartid = 0) (pmem : ByteMem) (dev : δ) (bpred : β)
    (t : Trace (hierarchy ⟨1, prefetchHint, devices⟩)) (start : t.state 0 = ⟨cpu, ⟨sys, MemState.init pmem dev⟩⟩)
    (standard : t.Standard) (k : Nat) (eu : EU) (s : Fin 2) (e : Engine (MemState δ) β)
    (call : CallsIn (hierarchy ⟨1, prefetchHint, devices⟩) cfg
      (Engine.init cfg cpu ⟨sys, MemState.init pmem dev⟩ bpred) k eu s e)
    (pcs : ∀ j, (e.ooo.rob j).valid = true → e.ooo.pos j ≤ e.ooo.pos (e.ooo.latch eu s).robIdx →
      (e.ooo.rob j).ir.pc = (t.inst (e.index j)).pc) : (operands e.ooo (e.ooo.latch eu s)).divDefined = true := by
  have law : CoherentMemory (hierarchy ⟨1, prefetchHint, devices⟩)
      fun w f => Represents ⟨1, prefetchHint, devices⟩ f w := hierarchy_coherent rfl
  have rep : Represents ⟨1, prefetchHint, devices⟩ ⟨pmem, ∅⟩ ⟨sys, MemState.init pmem dev⟩ :=
    ⟨init_represents _ pmem dev, fun _ => hart⟩
  have known := trace_known hart start standard
  have atPc : t.pc 0 = cpu.pc := congrArg (fun m : Machine _ => m.cpu.pc) start
  have mapped := standard.contained.mapped 0
  have initial : (Engine.init cfg cpu ⟨sys, MemState.init pmem dev⟩ bpred).Sound
      (fun w f => Represents ⟨1, prefetchHint, devices⟩ f w) ⟨pmem, ∅⟩ (t.pc 0) := by
    rw [atPc] at mapped ⊢
    exact init_sound cfg mapped rep bpred
  obtain ⟨ok, _, refines⟩ := call.visits.keeps
    (P := fun e => e.Sound (fun w f => Represents ⟨1, prefetchHint, devices⟩ f w) ⟨pmem, ∅⟩ (t.pc 0) ∧ e.Refines t)
    (fun _ _ ok holds step => ⟨step.sound law ok holds.1, step.simulates known ok holds.2 holds.1 standard law⟩)
    (fun _ _ ok holds step => ⟨step.sound law mapped ok holds.1,
      step.simulates known ok holds.2 holds.1 standard law (fun _ _ _ => Set.notMem_empty _) targets⟩)
    (oooInit_ok cpu) (oooInit_tidy cpu) ⟨initial, init_refines cfg (congrArg Machine.cpu start) _ bpred⟩
  obtain ⟨_, operated, resulted⟩ := call.visits.operated
  rw [(refines.onPath ok pcs known).divDefined ok operated resulted (call.calls.live ok) rfl]
  exact standard.divisions _

/-- `auipc x5, 0`, `lw x6, 0x40(x5)`, `beq x6, x0, +12`, then `div x7, x5, x0` and `fence`, and at the branch target a jump
to itself. -/
def guardedDivision : List Raw := [0x00000297, 0x0402a303, 0x00030663, 0x0202c3b3, 0x0000000f, 0x0000006f]

/-- The functional engine takes the branch and never divides. The out-of-order engine divides by zero while the branch
waits for the load. -/
theorem speculation_divides_by_zero : ∃ (t : Trace (hierarchy (.plain 1))) (e : Engine (MemState Unit) Unit),
    t.state 0 = ⟨⟨.empty, mbase⟩, ⟨Sys.init, MemState.init (image guardedDivision) ()⟩⟩ ∧
    (∀ n, (t.inst n).divDefined = true) ∧ CallsIn (hierarchy (.plain 1)) .solo (boot guardedDivision) 25 .mul 0 e ∧
    (operands e.ooo (e.ooo.latch .mul 0)).execFn = .div ∧ (operands e.ooo (e.ooo.latch .mul 0)).src2Val = 0 := by
  have machine : Unprotected 1 ⟨image guardedDivision, ∅⟩
      ⟨⟨.empty, mbase⟩, ⟨Sys.init, MemState.init (image guardedDivision) ()⟩⟩ :=
    ⟨⟨init_represents _ _ _, fun _ => rfl⟩, rfl, rfl⟩
  obtain ⟨t, start, _, insts⟩ := machine.trace rfl (flatCpus_start (image guardedDivision) _ 3)
    (flatCpus_closed (by decide +kernel) (by decide +kernel) (by decide +kernel))
  have defined : ∀ cpu ∈ flatCpus (image guardedDivision) ⟨.empty, mbase⟩ 3,
      (flatInst (image guardedDivision) cpu).divDefined = true := by decide +kernel
  have reached : (bootRun guardedDivision 25).any (fun e₀ =>
      (e₀.drainStoreBuf (hierarchy (.plain 1)) .solo).any fun e₁ =>
        (e₁.stageCommit (hierarchy (.plain 1)) .solo).any fun e₂ =>
          (unitInt (hierarchy (.plain 1)) .solo { e₂ with ooo := e₂.ooo.mshrTick }).any fun e =>
            decide (Calls e.ooo .mul 0 ∧ (operands e.ooo (e.ooo.latch .mul 0)).execFn = .div ∧
              (operands e.ooo (e.ooo.latch .mul 0)).src2Val = 0)) = true := by
    decide +kernel
  obtain ⟨e₀, ran, rest⟩ := (Option.any_eq_true _ _).mp reached
  obtain ⟨e₁, drained, rest⟩ := (Option.any_eq_true _ _).mp rest
  obtain ⟨e₂, committed, rest⟩ := (Option.any_eq_true _ _).mp rest
  obtain ⟨e, int, holds⟩ := (Option.any_eq_true _ _).mp rest
  obtain ⟨calls, divides⟩ := of_decide_eq_true holds
  refine ⟨t, e, start, fun n => ?_, ⟨⟨e₀, e₁, e₂, [], [], ran, drained, committed, rfl, e, int, rfl⟩, calls⟩, divides⟩
  obtain ⟨cpu, member, same⟩ := insts n
  rw [same]
  exact defined cpu member

end Engine

end Sustemu
