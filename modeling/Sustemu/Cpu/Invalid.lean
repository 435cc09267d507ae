import Sustemu.Cpu.Protection
import Sustemu.Ooo.Results

/-!
# Invalid instructions

`ir_decode` gives a word without a meaning the executor `ir_exec_inv`, which
raises the fault flag. The functional engine never looks at the flag; the
in-order pipeline stops in the execute stage, while an older instruction may
still wait for its write-back; the out-of-order engine panics at commit.
-/

set_option autoImplicit false

namespace Sustemu

open Lib

/-- Decoding leaves the result of the record as it was. -/
theorem irDecode_result (gpr : RegFile) (raw : Raw) (pc snpc : Word) (junk : IRInst) :
    (irDecode gpr raw pc snpc junk).result = junk.result := by
  unfold irDecode irFillOperands
  cases format : (irSelect raw).1 with
  | I | U | S | J | R | B | N => simp only [format]

/-- An invalid instruction does nothing but raise its flag. -/
theorem irExecute_invalid {perf : Perf} {ir : IRInst} {sys : Sys} (invalid : ir.execFn = .inv) :
    irExecute perf ir sys = some (irExecInv ir, sys) := by
  unfold irExecute
  rw [invalid]
  rfl

/-! ## Memory -/

section Memory

variable {δ : Type} {cfg : MemConfig δ}

variable (cfg) in
/-- No byte of memory has changed, wherever the caches keep it. -/
def MemKept (w w' : World (MemState δ)) : Prop := ∀ f, Represents cfg f w → Represents cfg f w'

theorem memKept_ifetch (hint : cfg.prefetchHint = prefetchHint) {w w' : World (MemState δ)} {addr value : Word} {len : Nat}
    (done : (hierarchy cfg).ifetch w addr len = some (value, w')) : MemKept cfg w w' := by
  intro f rep
  cases cached : inDram addr with
  | true =>
      obtain ⟨_, w₁, fetched, _, after, _⟩ := (hierarchy_coherent hint).ifetch len rep cached
      rw [fetched] at done
      cases done
      exact after
  | false =>
      change vaddrIfetch cfg w addr len = _ at done
      rw [vaddrIfetch, cached] at done
      exact (paddrRead_represents rep done).1

theorem memKept_sys {w : World (MemState δ)} {sys : Sys} (hart : sys.hartid = w.sys.hartid) :
    MemKept cfg w { w with sys := sys } := fun _ rep => ⟨rep.mem, fun one => hart.trans (rep.single one)⟩

theorem MemKept.trans {w w' w'' : World (MemState δ)} (first : MemKept cfg w w') (second : MemKept cfg w' w'') :
    MemKept cfg w w'' := fun f rep => second f (first f rep)

end Memory

/-! ## Functional mode -/

section Functional

variable {δ : Type} {mem : MemConfig δ}

variable (mem) in
/-- The functional engine handles an invalid word as it should. -/
def FunctionalHandles (m m' : Machine (MemState δ)) : Prop :=
  m'.world.sys.Stopped ∧ m'.cpu.gpr = m.cpu.gpr ∧ MemKept mem m.world m'.world

/-- Only a denied fetch stops the functional engine, and it writes what the record on the stack held. -/
theorem functionalHandles_iff (hint : mem.prefetchHint = prefetchHint) {stack ir : IRInst} {m m' : Machine (MemState δ)}
    (running : m.world.sys.state = .running) (done : execOnce (hierarchy mem) stack m = some (ir, m'))
    (invalid : ir.execFn = .inv) : FunctionalHandles mem m m' ↔
      FetchDenied m.world.sys m.cpu.pc ∧ ∀ rd, rdOf ir.raw = some rd → rd ≠ 0 → stack.result = m.cpu.gpr.get rd := by
  obtain ⟨raw, w, ir₁, sys, w₂, fetched, ran, accessed, rfl⟩ := execOnce_steps done
  obtain ⟨decoded, _, word⟩ := irDecode_fetched m.cpu.gpr (raw.setWidth 32) m.cpu.pc stack
  generalize record : irDecode m.cpu.gpr (raw.setWidth 32) m.cpu.pc (m.cpu.pc + 4) stack = ir₀ at ran decoded word
  -- the executor is that of an invalid word, before the access as after it
  have fn : ir₀.execFn = .inv := by
    rw [← (irExecute_sameInst ran).1.execFn, ← (irMemAccess_keeps accessed).1]
    exact invalid
  rw [irExecute_invalid fn] at ran
  cases ran
  cases accessed
  have junk : ir₀.result = stack.result := by
    rw [← record]
    exact irDecode_result ..
  have gpr : irWriteback (irExecInv ir₀) m.cpu.gpr = m.cpu.gpr ↔
      ∀ rd, rdOf ir₀.raw = some rd → rd ≠ 0 → stack.result = m.cpu.gpr.get rd := by
    rw [irWriteback_eq_iff, ← junk, ← decoded.rd]
    rfl
  have stopped : Sys.Stopped { w.sys with simCycles := w.sys.simCycles + 1, simInstret := w.sys.simInstret + 1 } ↔
      FetchDenied m.world.sys m.cpu.pc := fetch_stopped_iff running fetched
  have kept : MemKept mem m.world
      { w with sys := { w.sys with simCycles := w.sys.simCycles + 1, simInstret := w.sys.simInstret + 1 } } :=
    (memKept_sys (pmpCheck_hartid ..)).trans ((memKept_ifetch hint fetched).trans (memKept_sys rfl))
  unfold FunctionalHandles
  exact ⟨fun handled => ⟨stopped.mp handled.1, gpr.mp handled.2.1⟩,
    fun condition => ⟨stopped.mpr condition.1, gpr.mpr condition.2, kept⟩⟩

end Functional

/-! ## In-order mode -/

section Inorder

variable {δ β : Type} {mem : MemConfig δ} {cfg : PipeConfig β} {e e' e₀ : Inorder (MemState δ) β} {latch ex : PipeReg}
  {w₁ w₂ : World (MemState δ)}

variable (mem) in
/-- The pipeline handles an invalid word as it should: the registers are those that the older instruction in the
write-back latch leaves, and memory is what the memory stage has left. -/
def InorderHandles (left : World (MemState δ)) (e' : Inorder (MemState δ) β) : Prop :=
  e'.world.sys.Stopped ∧ e'.cpu.gpr = e'.written.gpr ∧ MemKept mem left e'.world

/-- The run stops in any case, and the memory stage has done its part. -/
theorem Inorder.Cycle.invalid (hint : mem.prefetchHint = prefetchHint)
    (cycle : Inorder.Cycle (hierarchy mem) cfg e e' e₀ latch ex w₁ w₂) (valid : (e.pipe.reg .ex).valid = true)
    (invalid : (e.pipe.reg .ex).ir.execFn = .inv) : e'.world.sys.Stopped ∧ MemKept mem w₁ e'.world := by
  obtain ⟨stopped, kept⟩ : w₂.sys.Stopped ∧ MemKept mem w₁ w₂ := by
    cases cycle.execute with
    | bubble empty =>
        rw [valid] at empty
        cases empty
    | execute _ done =>
        rw [irExecute_invalid invalid] at done
        cases done
        exact ⟨w₁.sys.stopped_abort, memKept_sys rfl⟩
  have front := cycle.front
  generalize (decodeStage _ _ _ _).2 = stalled at front
  cases front with
  | stall _ _ _ world =>
      rw [world]
      exact ⟨stopped, kept⟩
  | fetch read _ _ _ _ world =>
      rw [world]
      exact ⟨((hierarchy_reports mem).ifetch read).stopped stopped, kept.trans (memKept_ifetch hint read)⟩

/-- The registers are right unless the instruction that the memory stage has just served has a result to write. -/
theorem inorderHandles_iff (hint : mem.prefetchHint = prefetchHint)
    (cycle : Inorder.Cycle (hierarchy mem) cfg e e' e₀ latch ex w₁ w₂) (valid : (e.pipe.reg .ex).valid = true)
    (invalid : (e.pipe.reg .ex).ir.execFn = .inv) : InorderHandles mem w₁ e'.tick.syncInstret ↔
      (latch.valid = true → ∀ rd, latch.ir.rd = some rd → rd ≠ 0 → latch.ir.result = e.written.gpr.get rd) := by
  obtain ⟨stopped, kept⟩ := cycle.invalid hint valid invalid
  have regs : e'.tick.syncInstret.cpu.gpr = e'.tick.syncInstret.written.gpr ↔
      (latch.valid = true → irWriteback latch.ir e.written.gpr = e.written.gpr) := by
    have written : e'.tick.syncInstret.written = if latch.valid then ⟨irWriteback latch.ir e.written.gpr, latch.ir.dnpc⟩ else e.written := by
      unfold Inorder.written
      rw [show e'.tick.syncInstret.pipe = e'.pipe from rfl, show e'.tick.syncInstret.cpu = e'.cpu from rfl, cycle.wbLatch, cycle.cpu]
      rfl
    rw [written, show e'.tick.syncInstret.cpu = e'.cpu from rfl, cycle.cpu]
    cases latch.valid with
    | true => simp [eq_comm]
    | false => simp
  unfold InorderHandles
  simp only [← irWriteback_eq_iff]
  rw [regs]
  exact ⟨fun handled => handled.2.1, fun holds => ⟨stopped, holds, kept.trans (memKept_sys rfl)⟩⟩

end Inorder

/-! ## Out-of-order mode -/

/-- `ir_exec_inv` has marked the record. -/
structure IRInst.Refused (ir : IRInst) : Prop where
  fault : ir.fault = true
  kind : ir.itype = .invalid

theorem irExecute_refused {perf : Perf} {ir ir' : IRInst} {sys sys' : Sys} (run : irExecute perf ir sys = some (ir', sys'))
    (invalid : ir'.execFn = .inv) : ir'.Refused := by
  rw [(irExecute_sameInst run).1.execFn] at invalid
  rw [irExecute_invalid invalid] at run
  cases run
  exact ⟨rfl, rfl⟩

namespace OOOState

variable {o o' : OOOState}

/-- A completed invalid instruction is marked as such. -/
def Flagged (o : OOOState) : Prop :=
  ∀ i, (o.rob i).valid = true → (o.rob i).ready = true → (o.rob i).ir.execFn = .inv → (o.rob i).ir.Refused

theorem Flagged.same (flagged : o.Flagged) (rob : o'.rob = o.rob) : o'.Flagged := by
  unfold Flagged
  rw [rob]
  exact flagged

/-- One entry changes. -/
theorem Flagged.update (flagged : o.Flagged) {i : RobIdx} {entry : ROBEntry} (rob : o'.rob = setAt o.rob i entry)
    (flag : entry.ready = true → entry.ir.execFn = .inv → entry.ir.Refused) : o'.Flagged := by
  intro j valid ready invalid
  rw [rob] at valid ready invalid ⊢
  by_cases here : j = i
  · rw [here, setAt_self] at valid ready invalid ⊢
    exact flag ready invalid
  · rw [setAt_of_ne here] at valid ready invalid ⊢
    exact flagged j valid ready invalid

theorem Flagged.flushes (flagged : o.Flagged) {b : RobIdx} (flushes : o.Flushes b o') : o'.Flagged := by
  intro i valid ready invalid
  have older : o.pos i ≤ o.pos b := by
    by_contra newer
    rw [flushes.newer i (by omega)] at valid
    cases valid
  rw [flushes.older i older] at valid ready invalid ⊢
  exact flagged i valid ready invalid

/-- An access that has its address is not invalid, or has its flag. -/
theorem Computed.flag {s : Fin 2} (computed : o.Computed s) (invalid : (o.slotEntry .lsu s).ir.execFn = .inv) :
    (o.slotEntry .lsu s).ir.Refused := by
  obtain ⟨run, executor, same⟩ := computed.done
  rw [invalid] at executor
  cases executor
  rw [← same]
  exact ⟨rfl, rfl⟩

end OOOState

namespace Engine

variable {σ β : Type} {vm : VMem σ} {cfg : OooConfig β} {e e' : Engine σ β}

theorem BackStep.flagged (step : e.BackStep vm cfg e') (ok : e.ooo.Ok) (flagged : e.ooo.Flagged) : e'.ooo.Flagged := by
  cases step with
  | commit live ready ordered sound room stored checked =>
      rw [(commits_of_checked stored checked).ooo]
      intro i valid ready invalid
      rw [e.ooo.afterCommit_frame.rob] at valid ready invalid ⊢
      by_cases head : i = e.ooo.robHead
      · rw [head, setAt_self] at valid
        cases valid
      · rw [setAt_of_ne head] at valid ready invalid ⊢
        exact flagged i valid ready invalid
  | exec bpred fault unit live run completes faulted resolved =>
      refine flagged.update completes.rob fun _ invalid => ?_
      obtain ⟨flag, kind⟩ := irExecute_refused run invalid
      refine ⟨?_, kind⟩
      change (_ || fault) = true
      rw [flag]
      rfl
  | redirect live run completes control wrong target =>
      have done := flagged.update completes.rob fun _ => irExecute_refused run
      exact (done.flushes (redirect_flushes ok live run completes).2).same rfl
  | address live first executor =>
      refine flagged.update rfl fun ready => ?_
      have waits := (ok.inv.live_entry live).2
      cases waits.symm.trans ready
  | storeDone live computed store completes =>
      exact flagged.update completes.rob fun _ invalid => computed.flag invalid
  | loadFault addressed outside completes =>
      exact flagged.update completes.rob fun _ invalid => ⟨rfl, (addressed.computed.flag invalid).kind⟩
  | fill addressed device mapped read completes =>
      refine flagged.update completes.rob fun _ invalid => ?_
      obtain ⟨flag, kind⟩ := addressed.computed.flag invalid
      exact ⟨flag, kind⟩
  | _ => exact flagged.same rfl

theorem FrontStep.flagged (step : e.FrontStep vm cfg e') (flagged : e.ooo.Flagged) : e'.ooo.Flagged := by
  cases step with
  | rename valid inOrder alone room names renames => exact flagged.update renames.rob nofun
  | _ => exact flagged.same rfl

/-- Draining the store buffer leaves the reorder buffer alone. -/
theorem drainStoreBuf_rob (done : e.drainStoreBuf vm cfg = some e') :
    e'.ooo.rob = e.ooo.rob ∧ e'.ooo.robHead = e.ooo.robHead ∧ e'.ooo.robCount = e.ooo.robCount := by
  unfold drainStoreBuf at done
  simp only at done
  split at done
  · cases done
    exact ⟨rfl, rfl, rfl⟩
  · split at done
    · cases done
      exact ⟨rfl, rfl, rfl⟩
    · obtain ⟨world, _, rfl⟩ := Option.map_eq_some_iff.mp done
      exact ⟨rfl, rfl, rfl⟩

/-- An invalid word that has reached the head of the reorder buffer and completed makes the next cycle panic. -/
theorem cycle_invalid (flagged : e.ooo.Flagged) (live : e.ooo.robCount ≠ 0)
    (valid : (e.ooo.rob e.ooo.robHead).valid = true) (ready : (e.ooo.rob e.ooo.robHead).ready = true)
    (invalid : (e.ooo.rob e.ooo.robHead).ir.execFn = .inv) : e.cycle vm cfg = none := by
  obtain ⟨flag, kind⟩ := flagged _ valid ready invalid
  unfold cycle
  cases drained : e.drainStoreBuf vm cfg with
  | none => rfl
  | some e₁ =>
      obtain ⟨rob, head, count⟩ := drainStoreBuf_rob drained
      have refused : e₁.stageCommit vm cfg = none := by
        change commitLoop vm cfg 2 { e₁ with tcIr := [] } = none
        unfold commitLoop commitOne
        simp only [rob, head, count, live, valid, ready, flag, kind]
        rfl
      rw [Option.bind_eq_bind, Option.bind_some, refused]
      rfl

end Engine

/-! ## All modes -/

/-- When an invalid word stops the run with the registers and the memory of the instructions before it. The functional
engine needs a fetch that PMP denies, the pipeline an older neighbour without a pending result; the out-of-order engine
panics whenever the word is next to commit. -/
theorem invalid_words_iff {δ β γ : Type} (devices : Devices δ) :
    (∀ (stack ir : IRInst) (m m' : Machine (MemState δ)), m.world.sys.state = .running →
      execOnce (hierarchy ⟨1, prefetchHint, devices⟩) stack m = some (ir, m') → ir.execFn = .inv →
        (FunctionalHandles ⟨1, prefetchHint, devices⟩ m m' ↔ FetchDenied m.world.sys m.cpu.pc ∧
          ∀ rd, rdOf ir.raw = some rd → rd ≠ 0 → stack.result = m.cpu.gpr.get rd)) ∧
    (∀ (cfg : PipeConfig β) (e e' : Inorder (MemState δ) β), e.pipe.memStallRem = 0 →
      e.pipelineCycle (hierarchy ⟨1, prefetchHint, devices⟩) cfg = some e' →
      (e.pipe.reg .ex).valid = true → (e.pipe.reg .ex).ir.execFn = .inv →
        ∃ e₀ latch left, Inorder.Checks (hierarchy ⟨1, prefetchHint, devices⟩) cfg e e₀ ∧
          MemStage (hierarchy ⟨1, prefetchHint, devices⟩) (e.pipe.reg .mem) e₀.world latch left ∧
          (InorderHandles ⟨1, prefetchHint, devices⟩ left e' ↔
            (latch.valid = true → ∀ rd, latch.ir.rd = some rd → rd ≠ 0 → latch.ir.result = e.written.gpr.get rd))) ∧
    (∀ (cfg : OooConfig γ) (cpu : CPUState) (world : World (MemState δ)) (bpred : γ) (k : Nat) (e : Engine (MemState δ) γ),
      Engine.run (hierarchy ⟨1, prefetchHint, devices⟩) cfg k (.init cfg cpu world bpred) = some e →
      e.ooo.robCount ≠ 0 → (e.ooo.rob e.ooo.robHead).valid = true → (e.ooo.rob e.ooo.robHead).ready = true →
      (e.ooo.rob e.ooo.robHead).ir.execFn = .inv → e.cycle (hierarchy ⟨1, prefetchHint, devices⟩) cfg = none) := by
  refine ⟨fun stack ir m m' running done invalid => functionalHandles_iff rfl running done invalid, ?_, ?_⟩
  · intro cfg e e' awake done valid invalid
    unfold Inorder.pipelineCycle at done
    rw [if_neg (by omega)] at done
    obtain ⟨e₁, ran, rfl⟩ := Option.map_eq_some_iff.mp done
    obtain ⟨e₀, latch, ex, w₁, w₂, cycle⟩ := Inorder.stages_cycle ran
    exact ⟨e₀, latch, w₁, cycle.checks, cycle.memory, inorderHandles_iff rfl cycle valid invalid⟩
  · intro cfg cpu world bpred k e done live valid ready invalid
    have kept := Engine.run_keeps (P := fun e => e.ooo.Flagged) (fun _ _ ok flagged step => step.flagged ok flagged)
      (fun _ _ _ flagged step => step.flagged flagged) (Engine.oooInit_ok cpu) (Engine.oooInit_tidy cpu)
      (fun _ valid => absurd valid Bool.false_ne_true) done
    exact Engine.cycle_invalid kept.2.2 live valid ready invalid

/-- A load of no width into `x5`, again and again. -/
def invalidProgram : List Raw := List.replicate 8 0x00007283

/-- With nothing ahead of it in the pipeline, the first invalid word is handled as it should be. -/
theorem invalid_words_iff_first : ∃ e e' left, Inorder.run (hierarchy (.plain 1)) .plain 2
      (.init .plain (fun _ => .zero) ⟨.empty, mbase⟩ ⟨Sys.init, MemState.init (image invalidProgram) ()⟩ () ⟨.empty, 0⟩ false) =
        some e ∧
    e.pipelineCycle (hierarchy (.plain 1)) .plain = some e' ∧ InorderHandles (.plain 1) left e' := by
  have ran : (Inorder.run (hierarchy (.plain 1)) .plain 2 (.init .plain (fun _ => .zero) ⟨.empty, mbase⟩
      ⟨Sys.init, MemState.init (image invalidProgram) ()⟩ () ⟨.empty, 0⟩ false)).any (fun e =>
        (e.pipelineCycle (hierarchy (.plain 1)) .plain).isSome && (decide (e.pipe.memStallRem = 0) &&
          ((e.pipe.reg .ex).valid && (decide ((e.pipe.reg .ex).ir.execFn = .inv) && !(e.pipe.reg .mem).valid)))) = true := by
    decide +kernel
  obtain ⟨e, done, holds⟩ := (Option.any_eq_true _ _).mp ran
  simp only [Bool.and_eq_true, decide_eq_true_eq, Bool.not_eq_true'] at holds
  obtain ⟨cycles, awake, valid, invalid, empty⟩ := holds
  obtain ⟨e', cycled⟩ := Option.isSome_iff_exists.mp cycles
  obtain ⟨_, latch, left, _, memory, handles⟩ :=
    (@invalid_words_iff Unit Unit Unit Devices.none).2.1 .plain e e' awake cycled valid invalid
  refine ⟨e, e', left, done, cycled, handles.mpr fun busy => ?_⟩
  cases memory with
  | bubble => exact nomatch empty.symm.trans busy
  | access occupied => exact nomatch empty.symm.trans occupied

/-- The functional engine goes on, and `x5` holds what the stack held. -/
theorem invalid_word_ignored : ∃ ir m', execOnce (hierarchy (.plain 1)) { IRInst.zero with result := 1 }
      ⟨⟨.empty, mbase⟩, ⟨Sys.init, MemState.init (image invalidProgram) ()⟩⟩ = some (ir, m') ∧
    ir.execFn = .inv ∧ m'.world.sys.state = .running ∧ m'.cpu.gpr.get 5 = 1 := by
  have ran : (execOnce (hierarchy (.plain 1)) { IRInst.zero with result := 1 }
      ⟨⟨.empty, mbase⟩, ⟨Sys.init, MemState.init (image invalidProgram) ()⟩⟩).any (fun (ir, m') =>
        decide (ir.execFn = .inv) && (decide (m'.world.sys.state = .running) && m'.cpu.gpr.get 5 == 1)) = true := by
    decide +kernel
  obtain ⟨⟨ir, m'⟩, done, holds⟩ := (Option.any_eq_true _ _).mp ran
  simp only [Bool.and_eq_true, decide_eq_true_eq, beq_iff_eq] at holds
  exact ⟨ir, m', done, holds⟩

end Sustemu
