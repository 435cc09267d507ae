import Sustemu.Isa.Exec
import Sustemu.Memory.Vmem

/-!
# The functional engine

One instruction at a time: fetch, decode, execute, access memory, write back.
The instruction record lives on the stack of `exec_once` and is not
initialised, so its previous contents are a parameter.
-/

set_option autoImplicit false

namespace Sustemu

open Lib

variable {σ : Type} (vm : VMem σ)

/-- Cycles to reach a cache level: `LAT_L1_HIT`, `LAT_L2_HIT` and `LAT_DRAM`. -/
def levelToLat : Fin 3 → Nat
  | 0 => 1
  | 1 => 8
  | 2 => 40

theorem levelToLat_bounds (level : Fin 3) : 0 < levelToLat level ∧ levelToLat level ≤ 40 := by
  revert level
  decide

/-- `ir_mem_access` without a latency argument. -/
def irMemAccess (ir : IRInst) (w : World σ) : Option (IRInst × World σ) :=
  match ir.itype with
  | .load => (vm.read w ir.memAddr ir.memWidth).map fun (raw, w) =>
      ({ ir with result := extend ir.memSign ir.memWidth raw }, w)
  | .store => (vm.write w ir.memAddr ir.memWidth ir.src2Val).map fun w => (ir, w)
  | _ => some (ir, w)

/-- `ir_mem_access` with the latency it reports. -/
def irMemAccessLat (ir : IRInst) (w : World σ) : Option (IRInst × Nat × World σ) :=
  match ir.itype with
  | .load => (vm.readLevel w ir.memAddr ir.memWidth).map fun (level, raw, w) =>
      ({ ir with result := extend ir.memSign ir.memWidth raw }, levelToLat level, w)
  | .store => (vm.write w ir.memAddr ir.memWidth ir.src2Val).map fun w => (ir, levelToLat 0, w)
  | _ => some (ir, 0, w)

variable {vm} in
theorem irMemAccessLat_le {ir ir' : IRInst} {w w' : World σ} {lat : Nat} (done : irMemAccessLat vm ir w = some (ir', lat, w')) :
    lat ≤ 40 := by
  unfold irMemAccessLat at done
  split at done
  · obtain ⟨⟨level, raw, world⟩, _, same⟩ := Option.map_eq_some_iff.mp done
    cases same
    exact (levelToLat_bounds level).2
  · obtain ⟨world, _, same⟩ := Option.map_eq_some_iff.mp done
    cases same
    exact (levelToLat_bounds 0).2
  · cases done
    exact Nat.zero_le 40

/-- The architectural state of one hart and the world it runs in. -/
structure Machine (σ : Type) where
  cpu : CPUState
  world : World σ

/-- `exec_once`: the executed instruction and the machine after it. -/
def execOnce (stack : IRInst) (m : Machine σ) : Option (IRInst × Machine σ) := do
  let pc := m.cpu.pc
  let fetchWorld := { m.world with sys := (pmpCheck m.world.sys pc true false).2 }
  let (raw, w) ← vm.ifetch fetchWorld pc 4
  let ir := irDecode m.cpu.gpr (raw.setWidth 32) pc (pc + 4) stack
  let (ir, sys) ← irExecute (vm.perf w) ir w.sys
  let (ir, w) ← irMemAccess vm ir { w with sys := sys }
  let sys := { w.sys with simCycles := w.sys.simCycles + 1, simInstret := w.sys.simInstret + 1 }
  some (ir, ⟨⟨irWriteback ir m.cpu.gpr, ir.dnpc⟩, { w with sys := sys }⟩)

/-- The parts of `exec_once`. -/
theorem execOnce_steps {vm : VMem σ} {stack ir : IRInst} {m m' : Machine σ} (done : execOnce vm stack m = some (ir, m')) :
    ∃ raw w executed sys w', vm.ifetch { m.world with sys := (pmpCheck m.world.sys m.cpu.pc true false).2 } m.cpu.pc 4 =
        some (raw, w) ∧
      irExecute (vm.perf w) (irDecode m.cpu.gpr (raw.setWidth 32) m.cpu.pc (m.cpu.pc + 4) stack) w.sys =
        some (executed, sys) ∧
      irMemAccess vm executed { w with sys := sys } = some (ir, w') ∧
      m' = ⟨⟨irWriteback ir m.cpu.gpr, ir.dnpc⟩,
        { w' with sys := { w'.sys with simCycles := w'.sys.simCycles + 1, simInstret := w'.sys.simInstret + 1 } }⟩ := by
  simp only [execOnce, Option.bind_eq_bind, Option.bind_eq_some_iff] at done
  obtain ⟨⟨raw, w⟩, fetched, ⟨executed, sys⟩, run, ⟨ir', w'⟩, accessed, last⟩ := done
  cases last
  exact ⟨raw, w, executed, sys, w', fetched, run, accessed, rfl⟩

/-- `sys` after one more cycle and one more instruction. -/
def Sys.counted (sys : Sys) : Sys := { sys with simCycles := sys.simCycles + 1, simInstret := sys.simInstret + 1 }

/-- Repeated `exec_once`: the instructions executed and the machine after them. -/
def execMany (stack : Nat → IRInst) : Nat → Machine σ → Option (List IRInst × Machine σ)
  | 0, m => some ([], m)
  | n + 1, m => do
      let (executed, m) ← execMany stack n m
      let (ir, m) ← execOnce vm (stack n) m
      some (executed ++ [ir], m)

end Sustemu
