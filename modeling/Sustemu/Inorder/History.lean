import Sustemu.Inorder.Flow

/-!
# Histories of a pipeline

What a pipeline has logged and holds in its latches is one sequence of
instructions in program order: those retired, the one to be written back, and
behind it those of `Flow`. The accesses performed are those of the retired
instructions and of the one to be written back, in the same order.
-/

set_option autoImplicit false

namespace Sustemu

open Lib

/-- The instructions retired. -/
def retiredOf (log : List PipeEvent) : List IRInst :=
  log.filterMap fun event =>
    match event with
    | .retire ir => some ir
    | .access _ => none

/-- The accesses performed, loads with the value they read. -/
def accessesOf (log : List PipeEvent) : List IRInst :=
  log.filterMap fun event =>
    match event with
    | .access ir => some ir
    | .retire _ => none

def IRInst.isMemory (ir : IRInst) : Bool := decide (ir.itype = .load ∨ ir.itype = .store)

/-- The instruction in a latch, if there is one. -/
def PipeReg.content (r : PipeReg) : List IRInst := if r.valid then [r.ir] else []

theorem retiredOf_append (log extra : List PipeEvent) : retiredOf (log ++ extra) = retiredOf log ++ retiredOf extra :=
  List.filterMap_append ..

theorem accessesOf_append (log extra : List PipeEvent) :
    accessesOf (log ++ extra) = accessesOf log ++ accessesOf extra := List.filterMap_append ..

theorem retiredOf_cycle (wb mem : PipeReg) : retiredOf (cycleEvents wb mem) = wb.content := by
  unfold cycleEvents PipeReg.content
  split <;> split <;> rfl

theorem accessesOf_cycle (wb mem : PipeReg) : accessesOf (cycleEvents wb mem) = mem.content.filter IRInst.isMemory := by
  unfold cycleEvents PipeReg.content
  cases valid : mem.valid with
  | false => split <;> simp [accessesOf]
  | true =>
      simp only [true_and, if_true]
      by_cases memory : mem.ir.itype = .load ∨ mem.ir.itype = .store
      · rw [if_pos memory, List.filter_cons_of_pos (by simpa [IRInst.isMemory] using memory)]
        split <;> rfl
      · rw [if_neg memory, List.filter_cons_of_neg (by simpa [IRInst.isMemory] using memory)]
        split <;> rfl

namespace Inorder

variable {σ β : Type} {vm : VMem σ} {cfg : PipeConfig β} {e e' e₀ : Inorder σ β} {h : Fin 2} {s a : CoreArch}
  {log : List PipeEvent}

variable (cfg) in
/-- Hart `h` started in `s`, has logged `log` and reaches `a` once the write-back latch is empty. -/
structure History (h : Fin 2) (s : CoreArch) (log : List PipeEvent) (a : CoreArch) (e : Inorder σ β) : Prop where
  flow : e.Flow cfg h a
  run : Run (Performs h) s (retiredOf log ++ (e.pipe.reg .wb).content) a
  accesses : accessesOf log = (retiredOf log ++ (e.pipe.reg .wb).content).filter IRInst.isMemory

theorem History.cycle {mem ex : PipeReg} {w₁ w₂ : World σ} (history : e.History cfg h s log a) (tame : vm.Tame)
    (quiet : e.world.sys.SameArch e₀.world.sys) (cycle : Cycle vm cfg e e' e₀ mem ex w₁ w₂) :
    ∃ b, e'.History cfg h s (log ++ cycleEvents (e.pipe.reg .wb) mem) b := by
  obtain ⟨b, flow, stays, moves⟩ := history.flow.cycle tame quiet cycle
  refine ⟨b, flow, ?_, ?_⟩
  · rw [cycle.wbLatch, retiredOf_append, retiredOf_cycle]
    apply (run_append _ _).mpr
    refine ⟨a, history.run, ?_⟩
    unfold PipeReg.content
    split
    · next live => exact ⟨b, moves live, rfl⟩
    · next empty => exact (stays (by simpa using empty)).symm
  · rw [cycle.wbLatch, accessesOf_append, accessesOf_cycle, retiredOf_append, retiredOf_cycle, history.accesses,
      List.filter_append _ mem.content]

/-- Only counters differ. -/
structure Counted (e e' : Inorder σ β) : Prop where
  reg : e'.pipe.reg = e.pipe.reg
  fetch : e'.pipe.fetchPc = e.pipe.fetchPc
  cpu : e'.cpu = e.cpu
  sys : e.world.sys.SameArch e'.world.sys
  mem : e'.world.mem = e.world.mem
  log : e'.log = e.log
  diffCpu : e'.diffCpu = e.diffCpu
  diffInit : e'.diffInit = e.diffInit

theorem syncInstret_counted (e : Inorder σ β) : e.Counted e.tick.syncInstret :=
  ⟨rfl, rfl, rfl, ⟨fun _ => rfl, rfl⟩, rfl, rfl, rfl, rfl⟩

theorem frozen_counted (e : Inorder σ β) : e.Counted e.frozen.tick ∧ e.Counted e.frozen.tick.syncInstret :=
  ⟨⟨rfl, rfl, rfl, ⟨fun _ => rfl, rfl⟩, rfl, rfl, rfl, rfl⟩, ⟨rfl, rfl, rfl, ⟨fun _ => rfl, rfl⟩, rfl, rfl, rfl, rfl⟩⟩

/-- Nothing that the flow speaks of has changed. -/
theorem Flow.congr (flow : e.Flow cfg h a) (reg : e'.pipe.reg = e.pipe.reg) (fetch : e'.pipe.fetchPc = e.pipe.fetchPc)
    (cpu : e'.cpu = e.cpu) (sys : e.world.sys.SameArch e'.world.sys) : e'.Flow cfg h a := by
  obtain ⟨hart, registers, idle, performed, ready, follows, fetched⟩ := flow
  have same : e'.written = e.written := by
    unfold written
    rw [reg, cpu]
  constructor
  · rw [sys.hart, hart]
  · rw [registers, same]
  · rw [reg, sys.arch]
    exact idle
  · simp only [reg, sys.arch]
    exact performed
  · rw [reg]
    exact ready
  · rw [reg]
    exact follows
  · rw [reg, fetch]
    exact fetched

theorem History.congr (history : e.History cfg h s log a) (reg : e'.pipe.reg = e.pipe.reg)
    (fetch : e'.pipe.fetchPc = e.pipe.fetchPc) (cpu : e'.cpu = e.cpu) (sys : e.world.sys.SameArch e'.world.sys) :
    e'.History cfg h s log a where
  flow := history.flow.congr reg fetch cpu sys
  run := by
    rw [reg]
    exact history.run
  accesses := by
    rw [reg]
    exact history.accesses

theorem init_history (slots : Fin 4 → PipeReg) (cpu : CPUState) (world : World σ) (bpred : β) (diffCpu : CPUState)
    (diffInit : Bool) :
    (init cfg slots cpu world bpred diffCpu diffInit).History cfg world.sys.hartid (.save cpu world.sys) []
      (.save cpu world.sys) := by
  refine ⟨⟨rfl, rfl, fun _ => rfl, nofun, nofun, nofun, fun _ => rfl⟩, rfl, rfl⟩

end Inorder

end Sustemu
