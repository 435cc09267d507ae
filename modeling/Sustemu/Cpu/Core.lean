import Sustemu.Ooo.Runs

/-!
# Two cores

`core_cycle` loads the registers and engine of one hart into the globals, runs
the engine for one cycle and saves them again. Memory, the stop flag, the count
of active PMP entries and the cycle counters are not swapped: both harts see
the same ones.
-/

set_option autoImplicit false

namespace Sustemu

/-- The architectural state that `core_cycle` keeps for each hart. -/
structure CoreArch where
  cpu : CPUState
  csr : CSR
  privLevel : Word
  pmpcfg : Fin 8 → BitVec 8
  pmpaddr : Fin 8 → Word

/-- The globals with the registers of hart `h` loaded. -/
def CoreArch.install (arch : CoreArch) (h : Fin 2) (sys : Sys) : Sys :=
  { sys with
    csr := arch.csr, privLevel := arch.privLevel, pmpcfg := arch.pmpcfg, pmpaddr := arch.pmpaddr, hartid := h }

/-- The registers saved at the end of a cycle. -/
def CoreArch.save (cpu : CPUState) (sys : Sys) : CoreArch := ⟨cpu, sys.csr, sys.privLevel, sys.pmpcfg, sys.pmpaddr⟩

/-- A `Core` in out-of-order mode. -/
structure OooCore (σ β : Type) where
  arch : CoreArch
  ooo : OOOState
  stats : OOOStats
  bpred : β
  nextSeq : Nat
  log : List (Event σ)

/-- Both cores and the globals they share. -/
structure OooDual (σ β : Type) where
  core : Fin 2 → OooCore σ β
  world : World σ
  difftestRef : CPUState
  difftestActive : Bool
  tcIr : List IRInst

namespace OooDual

variable {σ β : Type} (vm : VMem σ) (cfg : OooConfig β)

/-- The engine that runs once the context of hart `h` is installed. -/
def engine (m : OooDual σ β) (h : Fin 2) : Engine σ β where
  ooo := (m.core h).ooo
  stats := (m.core h).stats
  cpu := (m.core h).arch.cpu
  world := { m.world with sys := (m.core h).arch.install h m.world.sys }
  bpred := (m.core h).bpred
  difftestRef := m.difftestRef
  difftestActive := m.difftestActive
  tcIr := m.tcIr
  nextSeq := (m.core h).nextSeq
  log := (m.core h).log

/-- The context of hart `h` is saved after its cycle. -/
def save (m : OooDual σ β) (h : Fin 2) (e : Engine σ β) : OooDual σ β where
  core := Lib.setAt m.core h ⟨.save e.cpu e.world.sys, e.ooo, e.stats, e.bpred, e.nextSeq, e.log⟩
  world := e.world
  difftestRef := e.difftestRef
  difftestActive := e.difftestActive
  tcIr := e.tcIr

/-- `core_cycle` in out-of-order mode. -/
def coreCycle (m : OooDual σ β) (h : Fin 2) : Option (OooDual σ β) := ((m.engine h).cycle vm cfg).map (m.save h)

/-- Calls of `core_cycle` in the order of a schedule. -/
def run (schedule : List (Fin 2)) (m : OooDual σ β) : Option (OooDual σ β) := schedule.foldlM (coreCycle vm cfg) m

/-- `core_create` and `ooo_init_core` for both harts, from any registers. -/
def init (arch : Fin 2 → CoreArch) (world : World σ) (bpred : Fin 2 → β) : OooDual σ β where
  core := fun h => ⟨arch h, oooInit (arch h).cpu, .zero, cfg.bpred.init (bpred h), 0, []⟩
  world := world
  difftestRef := (arch 1).cpu
  difftestActive := decide (cfg.numCores = 1) && cfg.difftestEn
  tcIr := []

variable {vm cfg} {m m' : OooDual σ β}

theorem engine_save_self (m : OooDual σ β) (h : Fin 2) (e : Engine σ β) :
    ((m.save h e).engine h).ooo = e.ooo ∧ ((m.save h e).engine h).log = e.log := by
  simp [engine, save]

theorem engine_save_other (m : OooDual σ β) {h h' : Fin 2} (other : h' ≠ h) (e : Engine σ β) :
    ((m.save h e).engine h').ooo = (m.engine h').ooo ∧ ((m.save h e).engine h').log = (m.engine h').log := by
  simp [engine, save, Lib.setAt_of_ne other]

section Keeps

variable {P : OOOState → List (Event σ) → Prop}

theorem coreCycle_keeps (back : ∀ e e' : Engine σ β, e.ooo.Ok → P e.ooo e.log → e.BackStep vm cfg e' → P e'.ooo e'.log)
    (front : ∀ e e' : Engine σ β, e.ooo.Ok → P e.ooo e.log → e.FrontStep vm cfg e' → P e'.ooo e'.log) {h : Fin 2}
    (holds : ∀ h', (m.engine h').ooo.Ok ∧ (m.engine h').ooo.Tidy ∧ P (m.engine h').ooo (m.engine h').log)
    (done : m.coreCycle vm cfg h = some m') (h' : Fin 2) :
    (m'.engine h').ooo.Ok ∧ (m'.engine h').ooo.Tidy ∧ P (m'.engine h').ooo (m'.engine h').log := by
  obtain ⟨e, cycled, rfl⟩ := Option.map_eq_some_iff.mp done
  by_cases same : h' = h
  · subst same
    obtain ⟨ok, tidy, good⟩ := holds h'
    obtain ⟨ooo, log⟩ := engine_save_self m h' e
    rw [ooo, log]
    exact Engine.cycle_keeps (P := fun e => P e.ooo e.log) back front ok tidy good cycled
  · obtain ⟨ooo, log⟩ := engine_save_other m same e
    rw [ooo, log]
    exact holds h'

/-- A property of a hart's engine and log that both ends keep holds along every schedule. -/
theorem run_keeps (back : ∀ e e' : Engine σ β, e.ooo.Ok → P e.ooo e.log → e.BackStep vm cfg e' → P e'.ooo e'.log)
    (front : ∀ e e' : Engine σ β, e.ooo.Ok → P e.ooo e.log → e.FrontStep vm cfg e' → P e'.ooo e'.log)
    {schedule : List (Fin 2)}
    (holds : ∀ h, (m.engine h).ooo.Ok ∧ (m.engine h).ooo.Tidy ∧ P (m.engine h).ooo (m.engine h).log)
    (done : m.run vm cfg schedule = some m') (h : Fin 2) :
    (m'.engine h).ooo.Ok ∧ (m'.engine h).ooo.Tidy ∧ P (m'.engine h).ooo (m'.engine h).log := by
  induction schedule generalizing m with
  | nil =>
      cases done
      exact holds h
  | cons first rest ih =>
      obtain ⟨m₁, stepped, done⟩ := Option.bind_eq_some_iff.mp done
      exact ih (coreCycle_keeps back front holds stepped) done

end Keeps

end OooDual

/-! ## A small machine -/

/-- Two cores, no prediction. -/
def OooConfig.duo : OooConfig Unit := { OooConfig.solo with numCores := 2 }

/-- Both harts at reset with a program at the reset address and all registers zero. -/
def OooDual.boot (words : List Raw) : OooDual (MemState Unit) Unit :=
  .init .duo (fun _ => .save ⟨.empty, mbase⟩ Sys.init) ⟨Sys.init, MemState.init (image words) ()⟩ fun _ => ()

/-- Cycles of the two harts. -/
def OooDual.bootRun (words : List Raw) (schedule : List (Fin 2)) : Option (OooDual (MemState Unit) Unit) :=
  (OooDual.boot words).run (hierarchy (.plain 2)) .duo schedule

end Sustemu
