import Sustemu.Isa.Csr
import Sustemu.Memory.Cache

/-!
# The memory interface

`VMem` is the interface of `vmem.h` through which the engines reach memory.
`hierarchy` is its implementation: per-hart first-level caches in front of a
shared second level and physical memory, with devices outside the cacheable
range. `none` stands for a failed assertion of a device access.
-/

set_option autoImplicit false

namespace Sustemu

open Lib

/-- The globals an engine runs against: system registers and memory. -/
structure World (σ : Type) where
  sys : Sys
  mem : σ

structure VMem (σ : Type) where
  ifetch : World σ → Word → Nat → Option (Word × World σ)
  read : World σ → Word → Nat → Option (Word × World σ)
  readLevel : World σ → Word → Nat → Option (Fin 3 × Word × World σ)
  probeLevel : World σ → Word → Fin 3 × World σ
  fillAndRead : World σ → Word → Nat → Option (Word × World σ)
  write : World σ → Word → Nat → Word → Option (World σ)
  perf : World σ → Perf

/-- A memory without contents. -/
def VMem.absent : VMem Unit where
  ifetch := fun _ _ _ => none
  read := fun _ _ _ => none
  readLevel := fun _ _ _ => none
  probeLevel := fun w _ => (0, w)
  fillAndRead := fun _ _ _ => none
  write := fun _ _ _ _ => none
  perf := fun _ => .zero

/-- The devices behind the MMIO map and the framebuffer. -/
structure Devices (δ : Type) where
  read : δ → Word → Nat → Option (Word × δ)
  write : δ → Word → Nat → Word → Option δ

/-- No device is mapped: every access fails its assertion. -/
def Devices.none : Devices Unit := ⟨fun _ _ _ => .none, fun _ _ _ _ => .none⟩

structure MemState (δ : Type) where
  l1i : Fin 2 → Cache
  l1d : Fin 2 → Cache
  l2 : Cache
  pmem : ByteMem
  dev : δ

structure MemConfig (δ : Type) where
  numCores : Nat
  prefetchHint : Nat → Nat
  devices : Devices δ

/-- `prefetch_hint` as the repository has it. -/
def prefetchHint : Nat → Nat := fun _ => 0

/-- `init_cache_system` and `core_create`: empty caches over a memory image. -/
def MemState.init {δ : Type} (pmem : ByteMem) (dev : δ) : MemState δ where
  l1i := fun _ => initCache 6 8
  l1d := fun _ => initCache 6 8
  l2 := initCache 8 16
  pmem := pmem
  dev := dev

namespace MemState

variable {δ : Type}

def back (m : MemState δ) : Backing := ⟨m.l2, m.pmem⟩

/-- The instruction side of hart `h`. -/
def fetchSide (m : MemState δ) (h : Fin 2) : Hier := ⟨m.l1i h, m.back⟩

/-- The data side of hart `h`. -/
def dataSide (m : MemState δ) (h : Fin 2) : Hier := ⟨m.l1d h, m.back⟩

def setFetchSide (m : MemState δ) (h : Fin 2) (side : Hier) : MemState δ :=
  { m with l1i := setAt m.l1i h side.l1, l2 := side.back.l2, pmem := side.back.pmem }

def setDataSide (m : MemState δ) (h : Fin 2) (side : Hier) : MemState δ :=
  { m with l1d := setAt m.l1d h side.l1, l2 := side.back.l2, pmem := side.back.pmem }

end MemState

/-- `host_read`: widths other than 1, 2, 4 and 8 read as zero. -/
def hostRead (mem : ByteMem) (addr len : Nat) : Word :=
  if len = 1 ∨ len = 2 ∨ len = 4 ∨ len = 8 then loadLE mem addr len else 0

/-- `host_write`: widths other than 1, 2, 4 and 8 write nothing. -/
def hostWrite (mem : ByteMem) (addr len : Nat) (data : Word) : ByteMem :=
  if len = 1 ∨ len = 2 ∨ len = 4 ∨ len = 8 then storeLE mem addr len data else mem

section Hierarchy

variable {δ : Type} (cfg : MemConfig δ)

-- A denied access is reported by `pmp_check` and then performed all the same.

def paddrRead (w : World (MemState δ)) (addr : Word) (len : Nat) : Option (Word × World (MemState δ)) :=
  let sys := (pmpCheck w.sys addr false false).2
  let pa := addr &&& 0xffffffff
  if inDram pa then some (hostRead w.mem.pmem pa.toNat len, { w with sys := sys })
  else (cfg.devices.read w.mem.dev pa len).map fun (value, dev) => (value, ⟨sys, { w.mem with dev := dev }⟩)

def paddrWrite (w : World (MemState δ)) (addr : Word) (len : Nat) (data : Word) : Option (World (MemState δ)) :=
  let sys := (pmpCheck w.sys addr false true).2
  let pa := addr &&& 0xffffffff
  if inDram pa then some ⟨sys, { w.mem with pmem := hostWrite w.mem.pmem pa.toNat len data }⟩
  else (cfg.devices.write w.mem.dev pa len data).map fun dev => ⟨sys, { w.mem with dev := dev }⟩

/-- `1 - g_current_hartid`. -/
def otherHart (h : Fin 2) : Fin 2 := 1 - h

/-- Before a read: the other core writes a dirty copy back. -/
def snoopRead (m : MemState δ) (h : Fin 2) (addr : Nat) : MemState δ :=
  if cfg.numCores > 1 then m.setDataSide (otherHart h) (cacheSnoopFlushDirty (m.dataSide (otherHart h)) addr)
  else m

/-- Before a write: the other core gives its copy up. -/
def snoopWrite (m : MemState δ) (h : Fin 2) (addr : Nat) : MemState δ :=
  if cfg.numCores > 1 then m.setDataSide (otherHart h) (cacheSnoopInvalidate (m.dataSide (otherHart h)) addr)
  else m

def vaddrIfetch (w : World (MemState δ)) (addr : Word) (len : Nat) : Option (Word × World (MemState δ)) :=
  if inDram addr then
    let (value, side) := cacheRead cfg.prefetchHint (w.mem.fetchSide w.sys.hartid) addr.toNat len
    some (value, { w with mem := w.mem.setFetchSide w.sys.hartid side })
  else paddrRead cfg w addr len

/-- `vaddr_read` and `vaddr_fill_and_read`, which have one body. -/
def vaddrRead (w : World (MemState δ)) (addr : Word) (len : Nat) : Option (Word × World (MemState δ)) :=
  if inDram addr then
    let m := snoopRead cfg w.mem w.sys.hartid addr.toNat
    let (value, side) := cacheRead cfg.prefetchHint (m.dataSide w.sys.hartid) addr.toNat len
    some (value, { w with mem := m.setDataSide w.sys.hartid side })
  else paddrRead cfg w addr len

def vaddrReadLevel (w : World (MemState δ)) (addr : Word) (len : Nat) :
    Option (Fin 3 × Word × World (MemState δ)) :=
  if inDram addr then
    let m := snoopRead cfg w.mem w.sys.hartid addr.toNat
    let (level, value, side) := cacheReadLevel cfg.prefetchHint (m.dataSide w.sys.hartid) addr.toNat len
    some (level, value, { w with mem := m.setDataSide w.sys.hartid side })
  else (paddrRead cfg w addr len).map fun (value, w) => (0, value, w)

def vaddrProbeLevel (w : World (MemState δ)) (addr : Word) : Fin 3 × World (MemState δ) :=
  if inDram addr then
    let (level, side) := cacheProbeLevel (w.mem.dataSide w.sys.hartid) addr.toNat
    (level, { w with mem := w.mem.setDataSide w.sys.hartid side })
  else (0, w)

def vaddrWrite (w : World (MemState δ)) (addr : Word) (len : Nat) (data : Word) : Option (World (MemState δ)) :=
  if inDram addr then
    let m := snoopWrite cfg w.mem w.sys.hartid addr.toNat
    let side := cacheWrite cfg.prefetchHint (m.dataSide w.sys.hartid) addr.toNat len data
    some { w with mem := m.setDataSide w.sys.hartid side }
  else paddrWrite cfg w addr len data

/-- The counters of the current hart's caches. -/
def perfCounters (w : World (MemState δ)) : Perf where
  l1dHits := BitVec.ofNat 64 (w.mem.l1d w.sys.hartid).hits
  l1dMisses := BitVec.ofNat 64 (w.mem.l1d w.sys.hartid).misses
  l1iHits := BitVec.ofNat 64 (w.mem.l1i w.sys.hartid).hits
  l1iMisses := BitVec.ofNat 64 (w.mem.l1i w.sys.hartid).misses
  l2Hits := BitVec.ofNat 64 w.mem.l2.hits
  l2Misses := BitVec.ofNat 64 w.mem.l2.misses

/-- The cache hierarchy behind `vmem.h`. -/
def hierarchy : VMem (MemState δ) where
  ifetch := vaddrIfetch cfg
  read := vaddrRead cfg
  readLevel := vaddrReadLevel cfg
  probeLevel := vaddrProbeLevel
  fillAndRead := vaddrRead cfg
  write := vaddrWrite cfg
  perf := perfCounters

end Hierarchy

/-! ## System registers -/

/-- A memory access changes no system register, but may end the run. -/
structure VMem.Reports {σ : Type} (vm : VMem σ) : Prop where
  ifetch : ∀ {w addr len value w'}, vm.ifetch w addr len = some (value, w') → w.sys.Reported w'.sys
  read : ∀ {w addr len value w'}, vm.read w addr len = some (value, w') → w.sys.Reported w'.sys
  readLevel : ∀ {w addr len level value w'}, vm.readLevel w addr len = some (level, value, w') → w.sys.Reported w'.sys
  probeLevel : ∀ w addr, (vm.probeLevel w addr).2.sys = w.sys
  fillAndRead : ∀ {w addr len value w'}, vm.fillAndRead w addr len = some (value, w') → w.sys.Reported w'.sys
  write : ∀ {w addr len data w'}, vm.write w addr len data = some w' → w.sys.Reported w'.sys

section Reports

variable {δ : Type} {cfg : MemConfig δ} {w w' : World (MemState δ)} {addr value data : Word} {len : Nat}

theorem paddrRead_reported (done : paddrRead cfg w addr len = some (value, w')) : w.sys.Reported w'.sys := by
  have kept := pmpCheck_reported w.sys addr false false
  unfold paddrRead at done
  simp only at done
  split at done
  · cases done
    exact kept
  · obtain ⟨⟨_, dev⟩, _, same⟩ := Option.map_eq_some_iff.mp done
    cases same
    exact kept

theorem paddrWrite_reported (done : paddrWrite cfg w addr len data = some w') : w.sys.Reported w'.sys := by
  have kept := pmpCheck_reported w.sys addr false true
  unfold paddrWrite at done
  simp only at done
  split at done
  · cases done
    exact kept
  · obtain ⟨dev, _, same⟩ := Option.map_eq_some_iff.mp done
    cases same
    exact kept

theorem vaddrRead_reported (done : vaddrRead cfg w addr len = some (value, w')) : w.sys.Reported w'.sys := by
  unfold vaddrRead at done
  split at done
  · cases done
    exact .inl rfl
  · exact paddrRead_reported done

theorem hierarchy_reports (cfg : MemConfig δ) : (hierarchy cfg).Reports where
  ifetch := by
    intro w addr len value w' done
    change vaddrIfetch cfg w addr len = _ at done
    unfold vaddrIfetch at done
    split at done
    · cases done
      exact .inl rfl
    · exact paddrRead_reported done
  read := vaddrRead_reported
  readLevel := by
    intro w addr len level value w' done
    change vaddrReadLevel cfg w addr len = _ at done
    unfold vaddrReadLevel at done
    split at done
    · cases done
      exact .inl rfl
    · obtain ⟨⟨_, _⟩, read, same⟩ := Option.map_eq_some_iff.mp done
      cases same
      exact paddrRead_reported read
  probeLevel := by
    intro w addr
    change (vaddrProbeLevel w addr).2.sys = _
    unfold vaddrProbeLevel
    split <;> rfl
  fillAndRead := vaddrRead_reported
  write := by
    intro w addr len data w' done
    change vaddrWrite cfg w addr len data = _ at done
    unfold vaddrWrite at done
    split at done
    · cases done
      exact .inl rfl
    · exact paddrWrite_reported done

end Reports

end Sustemu
