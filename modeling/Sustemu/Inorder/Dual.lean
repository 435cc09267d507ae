import Sustemu.Inorder.Memory

/-!
# Two in-order cores

`core_cycle` in in-order mode. Both harts perform their accesses on one memory,
and the machine logs them in that order. The order is sequentially consistent:
it contains each hart's accesses in program order, and every load returns what
the latest stores before it have left.
-/

set_option autoImplicit false

namespace Sustemu

open Lib

/-- A `Core` in in-order mode. -/
structure InorderCore (β : Type) where
  arch : CoreArch
  pipe : Pipeline
  stats : PipeStats
  bpred : β

/-- Both cores, the globals they share and what they have done, in order. -/
structure InorderDual (σ β : Type) where
  core : Fin 2 → InorderCore β
  world : World σ
  diffCpu : CPUState
  diffInit : Bool
  log : List (Fin 2 × PipeEvent)

/-- What one hart has done. -/
def logOf (h : Fin 2) (log : List (Fin 2 × PipeEvent)) : List PipeEvent :=
  log.filterMap fun event => if event.1 = h then some event.2 else none

/-- The accesses of both harts in the order they were performed. -/
def memoryOrder (log : List (Fin 2 × PipeEvent)) : List (Fin 2 × IRInst) :=
  log.filterMap fun event =>
    match event.2 with
    | .access ir => some (event.1, ir)
    | .retire _ => none

/-- The part of a memory order that belongs to one hart. -/
def orderOf (h : Fin 2) (order : List (Fin 2 × IRInst)) : List IRInst :=
  order.filterMap fun access => if access.1 = h then some access.2 else none

namespace InorderDual

variable {σ β : Type} (vm : VMem σ) (cfg : PipeConfig β)

/-- The pipeline that runs once the context of hart `h` is installed. -/
def engine (m : InorderDual σ β) (h : Fin 2) : Inorder σ β where
  pipe := (m.core h).pipe
  stats := (m.core h).stats
  cpu := (m.core h).arch.cpu
  world := { m.world with sys := (m.core h).arch.install h m.world.sys }
  bpred := (m.core h).bpred
  diffCpu := m.diffCpu
  diffInit := m.diffInit
  log := []

/-- The context of hart `h` is saved after its cycle. -/
def save (m : InorderDual σ β) (h : Fin 2) (e : Inorder σ β) : InorderDual σ β where
  core := setAt m.core h ⟨.save e.cpu e.world.sys, e.pipe, e.stats, e.bpred⟩
  world := e.world
  diffCpu := e.diffCpu
  diffInit := e.diffInit
  log := m.log ++ e.log.map fun event => (h, event)

/-- `core_cycle` in in-order mode. -/
def coreCycle (m : InorderDual σ β) (h : Fin 2) : Option (InorderDual σ β) :=
  ((m.engine h).pipelineCycleCore vm cfg).map (m.save h)

/-- Calls of `core_cycle` in the order of a schedule. -/
def run (schedule : List (Fin 2)) (m : InorderDual σ β) : Option (InorderDual σ β) := schedule.foldlM (coreCycle vm cfg) m

/-- `core_create` and `pipeline_init_core` for both harts, from any registers. -/
def init (arch : Fin 2 → CoreArch) (world : World σ) (bpred : Fin 2 → β) : InorderDual σ β where
  core := fun h => ⟨arch h, .init (fun _ => .zero) (arch h).cpu.pc, .zero,
    if cfg.bpred.enabled then cfg.bpred.init (bpred h) else bpred h⟩
  world := world
  diffCpu := ⟨.empty, 0⟩
  diffInit := false
  log := []

end InorderDual

/-! ## Logs -/

section Logs

variable (h : Fin 2) (log extra : List (Fin 2 × PipeEvent))

theorem logOf_append : logOf h (log ++ extra) = logOf h log ++ logOf h extra := List.filterMap_append ..

theorem memoryOrder_append : memoryOrder (log ++ extra) = memoryOrder log ++ memoryOrder extra := List.filterMap_append ..

theorem logOf_self (events : List PipeEvent) : logOf h (events.map fun event => (h, event)) = events := by
  unfold logOf
  rw [List.filterMap_map]
  simp

theorem logOf_other {h h' : Fin 2} (other : h' ≠ h) (events : List PipeEvent) :
    logOf h' (events.map fun event => (h, event)) = [] := by
  unfold logOf
  rw [List.filterMap_map]
  simp [Ne.symm other]

theorem memoryOrder_map (events : List PipeEvent) :
    (memoryOrder (events.map fun event => (h, event))).map Prod.snd = accessesOf events := by
  unfold memoryOrder accessesOf
  rw [List.filterMap_map, List.map_filterMap]
  congr 1
  funext event
  cases event with
  | access ir => rfl
  | retire ir => rfl

/-- A hart's share of the memory order are the accesses of its log. -/
theorem orderOf_memoryOrder : orderOf h (memoryOrder log) = accessesOf (logOf h log) := by
  unfold orderOf memoryOrder accessesOf logOf
  rw [List.filterMap_filterMap, List.filterMap_filterMap]
  congr 1
  funext event
  obtain ⟨hart, event⟩ := event
  cases event with
  | access ir => by_cases same : hart = h <;> simp [same]
  | retire ir => by_cases same : hart = h <;> simp [same]

end Logs

/-! ## Runs -/

namespace InorderDual

variable {σ β : Type} {vm : VMem σ} {cfg : PipeConfig β} {Rep : World σ → Flat → Prop} {m m' : InorderDual σ β}
  {start : Fin 2 → CoreArch} {pmem : ByteMem}

/-- The accesses performed so far. -/
def accesses (m : InorderDual σ β) : List IRInst := (memoryOrder m.log).map Prod.snd

variable (cfg Rep start pmem) in
/-- Both harts have executed in program order from `start`, and as long as all accesses are cacheable the memory order
explains the memory, the values loaded and the code. -/
structure Consistent (m : InorderDual σ β) : Prop where
  history : ∀ h, ∃ a, (m.engine h).History cfg h (start h) (logOf h m.log) a
  memory : (∀ ir ∈ m.accesses, ir.Contained) → Rep m.world ((⟨pmem, ∅⟩ : Flat).performed m.accesses)
  loads : (∀ ir ∈ m.accesses, ir.Contained) → LoadsSee ⟨pmem, ∅⟩ m.accesses
  latches : (∀ ir ∈ m.accesses, ir.Contained) →
    ∀ h, (m.engine h).CodeGenuine pmem ((⟨pmem, ∅⟩ : Flat).performed m.accesses).written
  retired : (∀ ir ∈ m.accesses, ir.Contained) → ∀ h, ∀ ir ∈ retiredOf (logOf h m.log),
    ir.Genuine pmem ((⟨pmem, ∅⟩ : Flat).performed m.accesses).written

theorem install_sameArch (arch : CoreArch) (h : Fin 2) (sys sys' : Sys) :
    (arch.install h sys).SameArch (arch.install h sys') := ⟨fun _ => rfl, rfl⟩

/-- The pipeline of the hart whose context has just been saved. -/
theorem engine_save_self (m : InorderDual σ β) {h : Fin 2} {e : Inorder σ β} (hart : e.world.sys.hartid = h) :
    ((m.save h e).engine h).pipe = e.pipe ∧ ((m.save h e).engine h).cpu = e.cpu ∧
      e.world.sys.SameArch ((m.save h e).engine h).world.sys := by
  simp only [engine, save, setAt_self]
  exact ⟨trivial, rfl, fun _ => rfl, hart.symm⟩

theorem engine_save_other (m : InorderDual σ β) {h h' : Fin 2} (other : h' ≠ h) (e : Inorder σ β) :
    ((m.save h e).engine h').pipe = (m.engine h').pipe ∧ ((m.save h e).engine h').cpu = (m.engine h').cpu ∧
      (m.engine h').world.sys.SameArch ((m.save h e).engine h').world.sys := by
  simp only [engine, save, setAt_of_ne other]
  exact ⟨trivial, trivial, install_sameArch ..⟩

theorem accesses_save (m : InorderDual σ β) (h : Fin 2) (e : Inorder σ β) :
    (m.save h e).accesses = m.accesses ++ accessesOf e.log := by
  unfold accesses save
  simp only
  rw [memoryOrder_append, List.map_append, memoryOrder_map]

section Step

variable (off : cfg.difftestEn = false) (tame : vm.Tame) (law : CoherentMemory vm Rep) (strays : StraysHarmless vm Rep)
  (shared : ∀ {w f} (sys : Sys), Rep w f → Rep { w with sys := sys } f)

theorem world_counted {e e' : Inorder σ β} (counted : e.Counted e') : e'.world = { e.world with sys := e'.world.sys } := by
  change e'.world = ⟨e'.world.sys, e.world.mem⟩
  rw [← counted.mem]

include off tame law strays shared in
/-- A cycle of one hart in which its stages run. -/
theorem Consistent.cycle (consistent : m.Consistent cfg Rep start pmem) {h : Fin 2} {e e' e₀ : Inorder σ β}
    {mem ex : PipeReg} {w₁ w₂ : World σ} (cycle : Inorder.Cycle vm cfg (m.engine h) e' e₀ mem ex w₁ w₂)
    (counted : e'.Counted e) : (m.save h e).Consistent cfg Rep start pmem := by
  obtain rfl := cycle.checks.off off
  obtain ⟨a, history⟩ := consistent.history h
  obtain ⟨b, after⟩ := history.cycle tame (.refl _) cycle
  have events : e.log = cycleEvents ((m.engine h).pipe.reg .wb) mem := by
    rw [counted.log, cycle.log]
    rfl
  have hart : e.world.sys.hartid = h := counted.sys.hart.trans after.flow.hart
  obtain ⟨pipe, cpu, sys⟩ := engine_save_self m hart
  have grown : (m.save h e).accesses = m.accesses ++ mem.content.filter IRInst.isMemory := by
    rw [accesses_save, events, accessesOf_cycle]
  have split : (∀ ir ∈ (m.save h e).accesses, ir.Contained) → (∀ ir ∈ m.accesses, ir.Contained) ∧
      Rep e'.world ((⟨pmem, ∅⟩ : Flat).performed (m.save h e).accesses) ∧
      Rep w₂ ((⟨pmem, ∅⟩ : Flat).performed (m.save h e).accesses) ∧
      LoadsSee ((⟨pmem, ∅⟩ : Flat).performed m.accesses) (mem.content.filter IRInst.isMemory) := by
    rw [grown]
    intro contained
    have before : ∀ ir ∈ m.accesses, ir.Contained := fun ir member => contained ir (List.mem_append_left _ member)
    obtain ⟨rep₁, _, sees⟩ := cycle.memory.represents law (shared _ (consistent.memory before))
      fun ir member => contained ir (List.mem_append_right _ member)
    have rep₂ := cycle.execute.represents law rep₁
    rw [Flat.performed_append]
    exact ⟨before, cycle.front.represents law strays rep₂, rep₂, loadsSee_content sees⟩
  have grows : ∀ byte ∈ ((⟨pmem, ∅⟩ : Flat).performed m.accesses).written,
      byte ∈ ((⟨pmem, ∅⟩ : Flat).performed (m.save h e).accesses).written := by
    rw [grown, Flat.performed_append]
    exact fun byte written => Flat.written_performed _ written _
  constructor
  · intro h'
    by_cases same : h' = h
    · subst same
      refine ⟨b, ?_⟩
      have log : logOf h' (m.save h' e).log = logOf h' m.log ++ cycleEvents ((m.engine h').pipe.reg .wb) mem := by
        rw [save, logOf_append, logOf_self, events]
      rw [log]
      exact after.congr (by rw [pipe, counted.reg]) (by rw [pipe, counted.fetch]) (by rw [cpu, counted.cpu])
        (counted.sys.trans sys)
    · obtain ⟨pipe', cpu', sys'⟩ := engine_save_other m same e
      obtain ⟨a', other⟩ := consistent.history h'
      refine ⟨a', ?_⟩
      have log : logOf h' (m.save h e).log = logOf h' m.log := by
        rw [save, logOf_append, logOf_other same, List.append_nil]
      rw [log]
      exact other.congr (by rw [pipe']) (by rw [pipe']) cpu' sys'
  · intro contained
    change Rep e.world _
    rw [world_counted counted]
    exact shared _ (split contained).2.1
  · intro contained
    obtain ⟨before, _, _, sees⟩ := split contained
    rw [grown, loadsSee_append]
    exact ⟨consistent.loads before, sees⟩
  · intro contained h'
    obtain ⟨before, _, rep₂, _⟩ := split contained
    by_cases same : h' = h
    · subst same
      unfold Inorder.CodeGenuine
      rw [pipe, counted.reg]
      exact cycle.genuine tame law rep₂ grows (consistent.latches before h')
    · obtain ⟨pipe', _, _⟩ := engine_save_other m same e
      unfold Inorder.CodeGenuine
      rw [pipe']
      exact fun l live => (consistent.latches before h' l live).mono grows rfl rfl
  · intro contained h' ir member
    obtain ⟨before, _⟩ := split contained
    rw [save, logOf_append, retiredOf_append] at member
    rcases List.mem_append.mp member with old | new
    · exact (consistent.retired before h' ir old).mono grows rfl rfl
    · by_cases same : h' = h
      · subst same
        rw [logOf_self, events, retiredOf_cycle, PipeReg.content] at new
        split at new
        · next live =>
            cases List.mem_singleton.mp new
            exact (consistent.latches before h' .wb live).mono grows rfl rfl
        · cases new
      · rw [logOf_other same] at new
        cases new

include shared in
/-- A cycle of one hart in which it is frozen. -/
theorem Consistent.frozen (consistent : m.Consistent cfg Rep start pmem) {h : Fin 2} {e : Inorder σ β}
    (counted : (m.engine h).Counted e) : (m.save h e).Consistent cfg Rep start pmem := by
  have events : e.log = [] := counted.log
  have hart : e.world.sys.hartid = h := counted.sys.hart
  have same : (m.save h e).accesses = m.accesses := by
    rw [accesses_save, events]
    exact List.append_nil _
  have log : (m.save h e).log = m.log := by
    rw [save, events]
    exact List.append_nil _
  have latches : ∀ h', ((m.save h e).engine h').pipe.reg = (m.engine h').pipe.reg ∧
      ((m.save h e).engine h').pipe.fetchPc = (m.engine h').pipe.fetchPc ∧
      ((m.save h e).engine h').cpu = (m.engine h').cpu ∧
      (m.engine h').world.sys.SameArch ((m.save h e).engine h').world.sys := by
    intro h'
    by_cases own : h' = h
    · subst own
      obtain ⟨pipe, cpu, sys⟩ := engine_save_self m hart
      rw [pipe, cpu]
      exact ⟨counted.reg, counted.fetch, counted.cpu, counted.sys.trans sys⟩
    · obtain ⟨pipe, cpu, sys⟩ := engine_save_other m own e
      rw [pipe, cpu]
      exact ⟨rfl, rfl, rfl, sys⟩
  constructor
  · intro h'
    obtain ⟨a, history⟩ := consistent.history h'
    obtain ⟨reg, fetch, cpu, sys⟩ := latches h'
    rw [log]
    exact ⟨a, history.congr reg fetch cpu sys⟩
  · rw [same]
    intro contained
    change Rep e.world _
    rw [world_counted counted]
    exact shared _ (shared _ (consistent.memory contained))
  · rw [same]
    exact consistent.loads
  · rw [same]
    intro contained h' l
    rw [(latches h').1]
    exact consistent.latches contained h' l
  · rw [same, log]
    exact consistent.retired

include off tame law strays shared in
theorem Consistent.run {schedule : List (Fin 2)} (consistent : m.Consistent cfg Rep start pmem)
    (done : m.run vm cfg schedule = some m') : m'.Consistent cfg Rep start pmem := by
  induction schedule generalizing m with
  | nil =>
      cases done
      exact consistent
  | cons h rest ih =>
      obtain ⟨m₁, stepped, done⟩ := Option.bind_eq_some_iff.mp done
      obtain ⟨e, cycled, rfl⟩ := Option.map_eq_some_iff.mp stepped
      refine ih ?_ done
      rcases Inorder.pipelineCycleCore_cases cycled with ⟨e₁, stages, rfl⟩ | rfl
      · obtain ⟨e₀, mem, ex, w₁, w₂, cycle⟩ := Inorder.stages_cycle stages
        exact consistent.cycle off tame law strays shared cycle e₁.syncInstret_counted
      · exact consistent.frozen shared (m.engine h).frozen_counted.2

end Step

variable (cfg) in
theorem init_consistent (arch : Fin 2 → CoreArch) {world : World σ} (rep : Rep world ⟨pmem, ∅⟩) (bpred : Fin 2 → β) :
    (init cfg arch world bpred).Consistent cfg Rep arch pmem where
  history := fun h => ⟨arch h, ⟨rfl, rfl, fun _ => rfl, nofun, nofun, nofun, fun _ => rfl⟩, rfl, rfl⟩
  memory := fun _ => rep
  loads := fun _ => trivial
  latches := fun _ _ l live => by cases l <;> cases live
  retired := fun _ _ _ member => nomatch member

end InorderDual

/-! ## Sequential consistency -/

/-- What the loads of a memory order return. -/
theorem LoadsSee.get {f : Flat} {before after : List IRInst} {ir : IRInst} (sees : LoadsSee f (before ++ ir :: after))
    (load : ir.itype = .load) : ir.result = extend ir.memSign ir.memWidth
      (loadLE (applyWrites f.bytes (writesOf before)) ir.memAddr.toNat ir.memWidth) := by
  rw [← Flat.performed_bytes]
  exact ((loadsSee_append ..).mp sees).2.1 load

/-- The order in which the two in-order harts perform their accesses contains each hart's accesses in program order,
where what the hart retires is a sequential execution of its code, and every load returns the bytes of the latest stores
before it. -/
theorem inorder_sequentially_consistent {δ β : Type} (devices : Devices δ) (cfg : PipeConfig β)
    (off : cfg.difftestEn = false) (arch : Fin 2 → CoreArch) (sys : Sys) (pmem : ByteMem) (dev : δ) (bpred : Fin 2 → β)
    (schedule : List (Fin 2)) (m : InorderDual (MemState δ) β)
    (done : (InorderDual.init cfg arch ⟨sys, MemState.init pmem dev⟩ bpred).run (hierarchy ⟨2, prefetchHint, devices⟩) cfg
      schedule = some m)
    (contained : ∀ access ∈ memoryOrder m.log, access.2.Contained)
    (code : ∀ access ∈ memoryOrder m.log, ∀ w ∈ access.2.write, ∀ h, ∀ ir ∈ retiredOf (logOf h m.log),
      Apart w.addr w.width ir.pc.toNat 4) :
    (∀ h, (∃ pending final, pending.length ≤ 1 ∧
        Run (Performs h) (arch h) (retiredOf (logOf h m.log) ++ pending) final ∧
        orderOf h (memoryOrder m.log) = (retiredOf (logOf h m.log) ++ pending).filter IRInst.isMemory) ∧
      ∀ ir ∈ retiredOf (logOf h m.log), inDram ir.pc = true → ir.pc.toNat % 4 = 0 →
        ir.raw = (loadLE pmem ir.pc.toNat 4).setWidth 32) ∧
    ∀ before h ir after, memoryOrder m.log = before ++ (h, ir) :: after → ir.itype = .load →
      ir.result = extend ir.memSign ir.memWidth
        (loadLE (applyWrites pmem (writesOf (before.map Prod.snd))) ir.memAddr.toNat ir.memWidth) := by
  have law : CoherentMemory (hierarchy ⟨2, prefetchHint, devices⟩)
      fun w f => Represents ⟨2, prefetchHint, devices⟩ f w := hierarchy_coherent rfl
  have init : (InorderDual.init cfg arch ⟨sys, MemState.init pmem dev⟩ bpred).Consistent cfg
      (fun w f => Represents ⟨2, prefetchHint, devices⟩ f w) arch pmem :=
    InorderDual.init_consistent cfg arch ⟨init_represents _ pmem dev, fun one => absurd one (Nat.not_succ_le_self 1)⟩ bpred
  have consistent := init.run off (hierarchy_tame _) law (hierarchy_strays _)
    (fun _ rep => ⟨rep.mem, fun one => absurd one (Nat.not_succ_le_self 1)⟩) done
  have all : ∀ ir ∈ m.accesses, ir.Contained := by
    intro ir member
    obtain ⟨access, inside, rfl⟩ := List.mem_map.mp member
    exact contained access inside
  refine ⟨fun h => ⟨?_, ?_⟩, ?_⟩
  · obtain ⟨final, history⟩ := consistent.history h
    refine ⟨_, final, ?_, history.run, ?_⟩
    · unfold PipeReg.content
      split <;> simp
    · rw [orderOf_memoryOrder, history.accesses]
  · intro ir member mapped aligned
    refine consistent.retired all h ir member mapped aligned fun byte low high written => ?_
    rcases Flat.performed_written _ written with none | ⟨w, stored, range⟩
    · exact none
    · obtain ⟨store, inside, write⟩ := List.mem_filterMap.mp stored
      obtain ⟨access, performed, rfl⟩ := List.mem_map.mp inside
      have apart := code access performed w write h ir member
      unfold Apart at apart
      omega
  · intro before h ir after order load
    have sees := consistent.loads all
    rw [InorderDual.accesses, order, List.map_append, List.map_cons] at sees
    exact sees.get load

/-- The harts start at the reset address and sixteen bytes later, with all registers zero. -/
def InorderDual.bootRun (words : List Raw) (schedule : List (Fin 2)) : Option (InorderDual (MemState Unit) Unit) :=
  (InorderDual.init .plain (fun h => .save ⟨.empty, if h = 0 then mbase else mbase + 16⟩ Sys.init)
    ⟨Sys.init, MemState.init (image words) ()⟩ fun _ => ()).run (hierarchy (.plain 2)) .plain schedule

/-- `auipc x1, 1; sd x1, 0(x1); ld x2, 0(x1)`, and the same with `auipc x1, 2`. -/
def pairProgram : List Raw := [0x00001097, 0x0010b023, 0x0000b103, 0, 0x00002097, 0x0010b023, 0x0000b103]

theorem inorder_sequentially_consistent_pair : ∃ m,
    InorderDual.bootRun pairProgram (List.replicate 6 [0, 1]).flatten = some m ∧ (memoryOrder m.log).length = 4 ∧
    (∀ access ∈ memoryOrder m.log, access.2.Contained) ∧
    ∀ before h ir after, memoryOrder m.log = before ++ (h, ir) :: after → ir.itype = .load →
      ir.result = extend ir.memSign ir.memWidth
        (loadLE (applyWrites (image pairProgram) (writesOf (before.map Prod.snd))) ir.memAddr.toNat ir.memWidth) := by
  have reached : (InorderDual.bootRun pairProgram (List.replicate 6 [0, 1]).flatten).any
      (fun m : InorderDual (MemState Unit) Unit =>
        decide ((memoryOrder m.log).length = 4 ∧ (∀ access ∈ memoryOrder m.log, access.2.Contained) ∧
          ∀ access ∈ memoryOrder m.log, ∀ w ∈ access.2.write, ∀ h, ∀ ir ∈ retiredOf (logOf h m.log),
            Apart w.addr w.width ir.pc.toNat 4)) = true := by
    decide +kernel
  obtain ⟨m, done, facts⟩ := (Option.any_eq_true _ _).mp reached
  obtain ⟨four, contained, code⟩ := of_decide_eq_true facts
  exact ⟨m, done, four, contained, (inorder_sequentially_consistent Devices.none .plain rfl _ _ (image pairProgram) () _ _ m
    done contained code).2⟩

end Sustemu
