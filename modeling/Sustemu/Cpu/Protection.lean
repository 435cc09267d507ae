import Sustemu.Inorder.Stages
import Sustemu.Memory.Hierarchy
import Sustemu.Ooo.Counting

/-!
# Physical memory protection

`pmp_check` reports a denied access by ending the run, and its callers ignore
the answer. An access through the caches is not checked at all; one past them
is checked and performed. What follows for the registers and the memory depends
on whether the engine still uses the result before it notices that the run has
ended.
-/

set_option autoImplicit false

namespace Sustemu

open Lib

/-- `state = NEMU_ABORT` with the bad status set. -/
def Sys.Stopped (sys : Sys) : Prop := sys.state = .abort ∧ sys.isBad = true

theorem Sys.stopped_abort (sys : Sys) : sys.abort.Stopped := ⟨rfl, rfl⟩

/-- Writing a result back changes nothing. -/
theorem irWriteback_eq_iff (ir : IRInst) (gpr : RegFile) :
    irWriteback ir gpr = gpr ↔ ∀ rd, ir.rd = some rd → rd ≠ 0 → ir.result = gpr.get rd := by
  unfold irWriteback
  cases dest : ir.rd with
  | none => simp
  | some rd =>
      constructor
      · intro same a found nonzero
        cases found
        have written := congrArg (fun regs : RegFile => regs.get rd) same
        rwa [RegFile.get_set_self _ _ nonzero] at written
      · intro holds
        refine RegFile.ext fun a => ?_
        rw [RegFile.get_set]
        split
        · next zero => rw [zero, RegFile.get_zero]
        · next nonzero =>
            split
            · next here =>
                rw [here] at nonzero ⊢
                exact holds rd rfl nonzero
            · rfl

/-! ## Checks -/

/-- `pmp_check` denies an access. -/
def Denied (sys : Sys) (addr : Word) (isExecute isWrite : Bool) : Prop := (pmpCheck sys addr isExecute isWrite).1 = false

theorem Sys.not_stopped {sys : Sys} (running : sys.state = .running) : ¬sys.Stopped := by
  intro stopped
  cases running.symm.trans stopped.1

theorem pmpCheck_stopped_iff {sys : Sys} (running : sys.state = .running) (addr : Word) (isExecute isWrite : Bool) :
    (pmpCheck sys addr isExecute isWrite).2.Stopped ↔ Denied sys addr isExecute isWrite := by
  unfold Denied
  rw [pmpCheck_sys]
  cases (pmpCheck sys addr isExecute isWrite).1 with
  | true => simpa using sys.not_stopped running
  | false => simpa using sys.stopped_abort

theorem Sys.Reported.stopped {sys sys' : Sys} (reported : sys.Reported sys') (stopped : sys.Stopped) : sys'.Stopped := by
  rcases reported with rfl | rfl
  · exact stopped
  · exact sys.stopped_abort

/-! ## Accesses -/

section Accesses

variable {δ : Type} {mem : MemConfig δ} {w w' : World (MemState δ)} {addr value data : Word} {len : Nat}

theorem paddrRead_sys (done : paddrRead mem w addr len = some (value, w')) : w'.sys = (pmpCheck w.sys addr false false).2 := by
  unfold paddrRead at done
  simp only at done
  split at done
  · cases done
    rfl
  · obtain ⟨⟨_, dev⟩, _, same⟩ := Option.map_eq_some_iff.mp done
    cases same
    rfl

variable (mem) in
/-- A read past the caches that leaves the devices as they were. -/
def Silent (m : MemState δ) (addr : Word) (len : Nat) : Prop :=
  inDram (addr &&& 0xffffffff) = true ∨
    ∃ value, mem.devices.read m.dev (addr &&& 0xffffffff) len = some (value, m.dev)

theorem paddrRead_mem_iff (done : paddrRead mem w addr len = some (value, w')) :
    w'.mem = w.mem ↔ Silent mem w.mem addr len := by
  unfold paddrRead at done
  simp only at done
  split at done
  · next mapped =>
      cases done
      exact iff_of_true rfl (.inl mapped)
  · next unmapped =>
      obtain ⟨⟨answer, dev⟩, read, same⟩ := Option.map_eq_some_iff.mp done
      cases same
      constructor
      · intro kept
        exact .inr ⟨answer, read.trans (congrArg (fun dev => some (answer, dev)) (congrArg MemState.dev kept))⟩
      · rintro (mapped | ⟨_, silent⟩)
        · exact absurd mapped unmapped
        · cases read.symm.trans silent
          rfl

/-- A read or a fetch: through the caches without a check, or past them. -/
structure Reads (mem : MemConfig δ) (w w' : World (MemState δ)) (addr value : Word) (len : Nat) : Prop where
  cached : inDram addr = true → w'.sys = w.sys
  uncached : inDram addr = false → paddrRead mem w addr len = some (value, w')

theorem Reads.stopped_iff (reads : Reads mem w w' addr value len) (running : w.sys.state = .running) :
    w'.sys.Stopped ↔ inDram addr = false ∧ Denied w.sys addr false false := by
  cases form : inDram addr with
  | true =>
      rw [reads.cached form]
      simpa using w.sys.not_stopped running
  | false =>
      rw [paddrRead_sys (reads.uncached form), pmpCheck_stopped_iff running]
      simp

/-- A denied read ends the run and changes nothing if it goes past the caches and no device reacts to it. -/
theorem Reads.enforced_iff (reads : Reads mem w w' addr value len) (running : w.sys.state = .running)
    (denied : Denied w.sys addr false false) :
    w'.sys.Stopped ∧ w'.mem = w.mem ↔ inDram addr = false ∧ Silent mem w.mem addr len := by
  rw [reads.stopped_iff running, and_iff_left denied]
  exact and_congr_right fun form => paddrRead_mem_iff (reads.uncached form)

theorem vaddrIfetch_reads (done : (hierarchy mem).ifetch w addr len = some (value, w')) : Reads mem w w' addr value len := by
  change vaddrIfetch mem w addr len = _ at done
  unfold vaddrIfetch at done
  split at done
  · next cached =>
      cases done
      exact ⟨fun _ => rfl, fun form => nomatch cached.symm.trans form⟩
  · next bypass => exact ⟨fun form => absurd form bypass, fun _ => done⟩

theorem vaddrRead_reads (done : vaddrRead mem w addr len = some (value, w')) : Reads mem w w' addr value len := by
  unfold vaddrRead at done
  split at done
  · next cached =>
      cases done
      exact ⟨fun _ => rfl, fun form => nomatch cached.symm.trans form⟩
  · next bypass => exact ⟨fun form => absurd form bypass, fun _ => done⟩

theorem vaddrReadLevel_reads {level : Fin 3} (done : (hierarchy mem).readLevel w addr len = some (level, value, w')) :
    Reads mem w w' addr value len := by
  change vaddrReadLevel mem w addr len = _ at done
  unfold vaddrReadLevel at done
  split at done
  · next cached =>
      cases done
      exact ⟨fun _ => rfl, fun form => nomatch cached.symm.trans form⟩
  · next bypass =>
      obtain ⟨⟨_, _⟩, read, same⟩ := Option.map_eq_some_iff.mp done
      cases same
      exact ⟨fun form => absurd form bypass, fun _ => read⟩

/-- A cached read leaves a trace in the cache. -/
theorem vaddrRead_touches (cached : inDram addr = true) (done : vaddrRead mem w addr len = some (value, w')) :
    w'.mem ≠ w.mem := by
  unfold vaddrRead at done
  rw [if_pos cached] at done
  have last : w'.mem = (snoopRead mem w.mem w.sys.hartid addr.toNat).setDataSide w.sys.hartid (cacheRead mem.prefetchHint
      ((snoopRead mem w.mem w.sys.hartid addr.toNat).dataSide w.sys.hartid) addr.toNat len).2 :=
    congrArg (fun done => done.2.mem) (Option.some_inj.mp done.symm)
  intro same
  have timer := congrArg (fun m : MemState δ => (m.l1d w.sys.hartid).timer) (last.symm.trans same)
  simp only [MemState.setDataSide, setAt_self, cacheRead_timer, MemState.dataSide, snoopRead_own] at timer
  omega

theorem vaddrWrite_touches (cached : inDram addr = true) (done : vaddrWrite mem w addr len data = some w') :
    w'.mem ≠ w.mem := by
  unfold vaddrWrite at done
  rw [if_pos cached] at done
  have last : w'.mem = (snoopWrite mem w.mem w.sys.hartid addr.toNat).setDataSide w.sys.hartid (cacheWrite mem.prefetchHint
      ((snoopWrite mem w.mem w.sys.hartid addr.toNat).dataSide w.sys.hartid) addr.toNat len data) :=
    congrArg World.mem (Option.some_inj.mp done.symm)
  intro same
  have timer := congrArg (fun m : MemState δ => (m.l1d w.sys.hartid).timer) (last.symm.trans same)
  simp only [MemState.setDataSide, setAt_self, cacheWrite_timer, MemState.dataSide, snoopWrite_own] at timer
  omega

variable (mem) in
/-- A store past the caches that leaves everything as it was: the bytes are there already, or the device does not change. -/
def Idempotent (m : MemState δ) (addr : Word) (len : Nat) (data : Word) : Prop :=
  if inDram (addr &&& 0xffffffff) then hostWrite m.pmem (addr &&& 0xffffffff).toNat len data = m.pmem
  else mem.devices.write m.dev (addr &&& 0xffffffff) len data = some m.dev

theorem paddrWrite_sys (done : paddrWrite mem w addr len data = some w') : w'.sys = (pmpCheck w.sys addr false true).2 := by
  unfold paddrWrite at done
  simp only at done
  split at done
  · cases done
    rfl
  · obtain ⟨dev, _, rfl⟩ := Option.map_eq_some_iff.mp done
    rfl

theorem paddrWrite_mem_iff (done : paddrWrite mem w addr len data = some w') :
    w'.mem = w.mem ↔ Idempotent mem w.mem addr len data := by
  unfold paddrWrite at done
  unfold Idempotent
  simp only at done
  split at done
  · next mapped =>
      cases done
      rw [if_pos mapped]
      exact ⟨congrArg MemState.pmem, fun same => by rw [same]⟩
  · next unmapped =>
      obtain ⟨dev, written, rfl⟩ := Option.map_eq_some_iff.mp done
      rw [if_neg unmapped, written]
      exact ⟨fun kept => congrArg some (congrArg MemState.dev kept), fun same => by rw [Option.some_inj.mp same]⟩

/-- A denied store is enforced only if it is checked, that is, goes past the caches, and would change nothing. -/
theorem store_enforced_iff (running : w.sys.state = .running) (denied : Denied w.sys addr false true)
    (done : (hierarchy mem).write w addr len data = some w') :
    w'.sys.Stopped ∧ w'.mem = w.mem ↔ inDram addr = false ∧ Idempotent mem w.mem addr len data := by
  change vaddrWrite mem w addr len data = _ at done
  unfold vaddrWrite at done
  cases form : inDram addr with
  | true =>
      rw [form, if_pos rfl] at done
      cases done
      have going : ¬w.sys.Stopped := w.sys.not_stopped running
      simp [going]
  | false =>
      rw [form, if_neg (by decide)] at done
      rw [paddrWrite_sys done, pmpCheck_stopped_iff running, paddrWrite_mem_iff done]
      simp [denied]

end Accesses

/-! ## Instructions after the end of the run -/

/-- In system state `sys` the instruction writes nothing to the system registers but what they hold, and does not touch
the state of the run. -/
def IRInst.KeepsSys (perf : Perf) (ir : IRInst) (sys : Sys) : Prop :=
  match ir.execFn with
  | .csrrw => setCsr sys (csrNo ir) ir.src1Val = sys
  | .csrrs => ir.src1Val ≠ 0 → ∀ value, readCsr perf sys (csrNo ir) = some (value, sys) →
      setCsr sys (csrNo ir) (value ||| ir.src1Val) = sys
  | .csrrc => ir.src1Val ≠ 0 → ∀ value, readCsr perf sys (csrNo ir) = some (value, sys) →
      setCsr sys (csrNo ir) (value &&& ~~~ir.src1Val) = sys
  | .ecall => exceptionPrivTransfer (raiseIntr sys 11 ir.pc).2 = sys
  | .mret => mretPrivTransfer sys = sys
  | .ebreak => False
  | _ => True

/-- After the run has ended, reading a CSR changes nothing. -/
theorem readCsr_ended {perf : Perf} {sys sys' : Sys} {no : Nat} {value : Word} (ended : sys.abort = sys)
    (read : readCsr perf sys no = some (value, sys')) : sys' = sys := (readCsr_reported read).elim id (·.trans ended)

theorem irExecCsrrm_sys_iff {combine : Word → Word → Word} {perf : Perf} {ir ir' : IRInst} {sys sys' : Sys}
    (ended : sys.abort = sys) (executed : irExecCsrrm combine perf ir sys = some (ir', sys')) :
    sys' = sys ↔ (ir.src1Val ≠ 0 → ∀ value, readCsr perf sys (csrNo ir) = some (value, sys) →
      setCsr sys (csrNo ir) (combine value ir.src1Val) = sys) := by
  obtain ⟨⟨value, after⟩, read, same⟩ := Option.map_eq_some_iff.mp executed
  cases same
  have kept := readCsr_ended ended read
  subst kept
  rw [read]
  by_cases masked : ir.src1Val = 0
  · simp [masked]
  · simp

/-- What an instruction does to the system state after the run has ended. -/
theorem irExecute_sys_iff {perf : Perf} {ir ir' : IRInst} {sys sys' : Sys} (ended : sys.abort = sys)
    (executed : irExecute perf ir sys = some (ir', sys')) : sys' = sys ↔ ir.KeepsSys perf sys := by
  unfold irExecute at executed
  unfold IRInst.KeepsSys
  cases fn : ir.execFn with
  | csrrw =>
      rw [fn] at executed
      obtain ⟨⟨value, after⟩, read, same⟩ := Option.map_eq_some_iff.mp executed
      cases same
      have kept : after = sys := by
        split at read
        · exact readCsr_ended ended read
        · cases read
          rfl
      rw [kept]
  | csrrs =>
      rw [fn] at executed
      exact irExecCsrrm_sys_iff ended executed
  | csrrc =>
      rw [fn] at executed
      exact irExecCsrrm_sys_iff ended executed
  | ecall =>
      rw [fn] at executed
      cases executed
      exact Iff.rfl
  | mret =>
      rw [fn] at executed
      obtain ⟨⟨target, after⟩, read, same⟩ := Option.map_eq_some_iff.mp executed
      cases same
      have kept : after = sys := readCsr_ended ended read
      rw [kept]
  | ebreak =>
      rw [fn] at executed
      cases executed
      refine iff_of_false (fun same => ?_) id
      have state := congrArg Sys.state (ended.trans same.symm)
      cases state
  | _ =>
      rw [fn] at executed
      cases executed
      exact iff_of_true rfl trivial

/-- A load or a store only computes its address. -/
theorem irExecute_access {perf : Perf} {ir ir' : IRInst} {sys sys' : Sys} (executed : irExecute perf ir sys = some (ir', sys'))
    (access : ir'.itype = .load ∨ ir'.itype = .store) : sys' = sys := by
  have kind := irExecute_itype executed
  rw [kind] at access
  unfold irExecute at executed
  cases fn : ir.execFn <;> simp only [fn, ExecFn.pure] at executed access <;>
    first
    | cases executed; rfl
    | rcases access with load | store <;> contradiction

/-! ## Functional mode -/

section Functional

variable {δ : Type} {mem : MemConfig δ} {stack ir : IRInst} {m m' : Machine (MemState δ)}

/-- The PMP check that `exec_once` makes, or the one of an uncached fetch, denies the fetch at `pc`. -/
def FetchDenied (sys : Sys) (pc : Word) : Prop :=
  Denied sys pc true false ∨ inDram pc = false ∧ Denied sys pc false false

variable (mem) in
/-- The fetch of `exec_once`. -/
def fetchOnce (m : Machine (MemState δ)) : Option (Word × World (MemState δ)) :=
  (hierarchy mem).ifetch { m.world with sys := (pmpCheck m.world.sys m.cpu.pc true false).2 } m.cpu.pc 4

/-- The fetch ends the run exactly if a check denies it. -/
theorem fetch_stopped_iff {w : World (MemState δ)} {raw : Word} (running : m.world.sys.state = .running)
    (fetched : fetchOnce mem m = some (raw, w)) : w.sys.Stopped ↔ FetchDenied m.world.sys m.cpu.pc := by
  unfold fetchOnce at fetched
  have checked := pmpCheck_sys m.world.sys m.cpu.pc true false
  cases passed : (pmpCheck m.world.sys m.cpu.pc true false).1 with
  | true =>
      rw [passed, if_pos rfl] at checked
      rw [checked] at fetched
      rw [(vaddrIfetch_reads fetched).stopped_iff running]
      simp [FetchDenied, Denied, passed]
  | false =>
      have stopped := (pmpCheck_stopped_iff running m.cpu.pc true false).mpr passed
      exact iff_of_true (((hierarchy_reports mem).ifetch fetched).stopped stopped) (.inl passed)

/-- A denied fetch has reported, and nothing else. -/
theorem fetchOnce_denied {w : World (MemState δ)} {raw : Word} (denied : Denied m.world.sys m.cpu.pc true false)
    (fetched : fetchOnce mem m = some (raw, w)) : w.sys = m.world.sys.abort := by
  have reported := (hierarchy_reports mem).ifetch fetched
  rw [pmpCheck_sys, if_neg (Bool.eq_false_iff.mp denied)] at reported
  exact reported.elim id id

theorem irMemAccess_keeps {σ : Type} {vm : VMem σ} {ir ir' : IRInst} {w w' : World σ}
    (accessed : irMemAccess vm ir w = some (ir', w')) :
    ir'.execFn = ir.execFn ∧ ir'.itype = ir.itype ∧ ir'.memAddr = ir.memAddr := by
  unfold irMemAccess at accessed
  split at accessed
  · obtain ⟨_, _, same⟩ := Option.map_eq_some_iff.mp accessed
    cases same
    exact ⟨rfl, rfl, rfl⟩
  · obtain ⟨_, _, same⟩ := Option.map_eq_some_iff.mp accessed
    cases same
    exact ⟨rfl, rfl, rfl⟩
  · cases accessed
    exact ⟨rfl, rfl, rfl⟩

theorem irMemAccess_idle {σ : Type} {vm : VMem σ} {ir ir' : IRInst} {w w' : World σ}
    (accessed : irMemAccess vm ir w = some (ir', w')) : w' = w ∨ ir.itype = .load ∨ ir.itype = .store := by
  unfold irMemAccess at accessed
  split at accessed
  · next load => exact .inr (.inl load)
  · next store => exact .inr (.inr store)
  · cases accessed
    exact .inl rfl

theorem irMemAccess_reported {σ : Type} {vm : VMem σ} (reports : vm.Reports) {ir ir' : IRInst} {w w' : World σ}
    (accessed : irMemAccess vm ir w = some (ir', w')) : w.sys.Reported w'.sys := by
  unfold irMemAccess at accessed
  split at accessed
  · obtain ⟨_, read, same⟩ := Option.map_eq_some_iff.mp accessed
    cases same
    exact reports.read read
  · obtain ⟨_, written, same⟩ := Option.map_eq_some_iff.mp accessed
    cases same
    exact reports.write written
  · cases accessed
    exact .inl rfl

variable (mem) in
/-- An instruction whose access, if it makes one, leaves memory, caches and devices as they were. -/
structure IRInst.Quiet (ir : IRInst) (m : MemState δ) : Prop where
  load : ir.itype = .load → inDram ir.memAddr = false ∧ Silent mem m ir.memAddr ir.memWidth
  store : ir.itype = .store → inDram ir.memAddr = false ∧ Idempotent mem m ir.memAddr ir.memWidth ir.src2Val

/-- After the run has ended an access has only memory and devices left to change. -/
theorem irMemAccess_quiet_iff {w w' : World (MemState δ)} {executed : IRInst} (ended : w.sys.abort = w.sys)
    (accessed : irMemAccess (hierarchy mem) executed w = some (ir, w')) : w' = w ↔ ir.Quiet mem w.mem := by
  have reported : w'.sys = w.sys := (irMemAccess_reported (hierarchy_reports mem) accessed).elim id (·.trans ended)
  have whole : w' = w ↔ w'.mem = w.mem := ⟨congrArg World.mem, fun same => by rw [World.mk.injEq]; exact ⟨reported, same⟩⟩
  rw [whole]
  unfold irMemAccess at accessed
  split at accessed
  · next load =>
      obtain ⟨⟨value, w''⟩, read, same⟩ := Option.map_eq_some_iff.mp accessed
      cases same
      have kept : w'.mem = w.mem ↔ inDram executed.memAddr = false ∧ Silent mem w.mem executed.memAddr executed.memWidth := by
        cases form : inDram executed.memAddr with
        | true => simp [vaddrRead_touches form read]
        | false => simpa using paddrRead_mem_iff ((vaddrRead_reads read).uncached form)
      rw [kept]
      exact ⟨fun quiet => ⟨fun _ => quiet, fun store => nomatch load.symm.trans store⟩, fun quiet => quiet.load load⟩
  · next store =>
      obtain ⟨w'', written, same⟩ := Option.map_eq_some_iff.mp accessed
      cases same
      have kept : w'.mem = w.mem ↔ inDram ir.memAddr = false ∧
          Idempotent mem w.mem ir.memAddr ir.memWidth ir.src2Val := by
        cases form : inDram ir.memAddr with
        | true => simp [vaddrWrite_touches form written]
        | false =>
            change vaddrWrite mem w ir.memAddr ir.memWidth ir.src2Val = _ at written
            unfold vaddrWrite at written
            rw [form, if_neg (by decide)] at written
            simpa using paddrWrite_mem_iff written
      rw [kept]
      exact ⟨fun quiet => ⟨fun load => (nomatch store.symm.trans load), fun _ => quiet⟩, fun quiet => quiet.store store⟩
  · next noLoad noStore =>
      cases accessed
      exact iff_of_true rfl ⟨fun load => absurd load noLoad, fun store => absurd store noStore⟩

theorem Sys.counted_inj {sys sys' : Sys} : sys.counted = sys'.counted ↔ sys = sys' := by
  refine ⟨fun same => ?_, congrArg Sys.counted⟩
  simp only [Sys.counted, Sys.mk.injEq, BitVec.add_left_inj] at same
  exact Sys.mk.injEq .. ▸ same

variable (mem) in
/-- Executed in world `w`, the instruction fetched changes nothing but the program counter. -/
structure Inert (stack : IRInst) (m : Machine (MemState δ)) (raw : Word) (w : World (MemState δ)) (ir : IRInst) : Prop where
  system : (irDecode m.cpu.gpr (raw.setWidth 32) m.cpu.pc (m.cpu.pc + 4) stack).KeepsSys ((hierarchy mem).perf w) w.sys
  memory : ir.Quiet mem w.mem
  register : ∀ rd, ir.rd = some rd → rd ≠ 0 → ir.result = m.cpu.gpr.get rd

/-- A denied fetch is executed all the same: it is enforced only if the instruction would change nothing. -/
theorem functional_fetch_enforced_iff {raw : Word} {w : World (MemState δ)}
    (denied : Denied m.world.sys m.cpu.pc true false) (fetched : fetchOnce mem m = some (raw, w))
    (done : execOnce (hierarchy mem) stack m = some (ir, m')) :
    m'.world.sys.Stopped ∧ m'.cpu.gpr = m.cpu.gpr ∧ m'.world = ⟨m.world.sys.abort.counted, w.mem⟩ ↔
      Inert mem stack m raw w ir := by
  obtain ⟨raw', w₁, executed, sys, w', fetched', run, accessed, rfl⟩ := execOnce_steps done
  cases fetched.symm.trans fetched'
  have ended : w.sys = m.world.sys.abort := fetchOnce_denied denied fetched
  have again : w.sys.abort = w.sys := by rw [ended]; rfl
  have system := irExecute_sys_iff again run
  -- an instruction that accesses memory changes no system register
  have world : w'.sys = w.sys ∧ w'.mem = w.mem ↔ sys = w.sys ∧ ir.Quiet mem w.mem := by
    constructor
    · intro same
      have kept : sys = w.sys := by
        rcases irMemAccess_idle accessed with rfl | access
        · exact same.1
        · exact irExecute_access run access
      rw [kept] at accessed
      refine ⟨kept, (irMemAccess_quiet_iff again accessed).mp ?_⟩
      rw [World.mk.injEq]
      exact same
    · rintro ⟨kept, quiet⟩
      rw [kept] at accessed
      have same := (irMemAccess_quiet_iff again accessed).mpr quiet
      exact ⟨congrArg World.sys same, congrArg World.mem same⟩
  have unchanged : (⟨w'.sys.counted, w'.mem⟩ : World (MemState δ)) = ⟨m.world.sys.abort.counted, w.mem⟩ ↔
      w'.sys = w.sys ∧ w'.mem = w.mem := by
    rw [World.mk.injEq, Sys.counted_inj, ended]
  change Sys.Stopped w'.sys.counted ∧ irWriteback ir m.cpu.gpr = m.cpu.gpr ∧ (⟨w'.sys.counted, w'.mem⟩ : World (MemState δ)) = _ ↔ _
  rw [unchanged, world, system, irWriteback_eq_iff]
  constructor
  · rintro ⟨_, register, keeps, quiet⟩
    exact ⟨keeps, quiet, register⟩
  · rintro ⟨keeps, quiet, register⟩
    have same := (world.mpr ⟨system.mpr keeps, quiet⟩).1
    refine ⟨?_, register, keeps, quiet⟩
    rw [same, ended]
    exact m.world.sys.stopped_abort

/-- A denied load is enforced only if it goes past the caches, no device reacts to it and its destination already holds the
value. -/
theorem functional_load_enforced_iff {raw : Word} {w : World (MemState δ)} (running : m.world.sys.state = .running)
    (allowed : ¬FetchDenied m.world.sys m.cpu.pc) (fetched : fetchOnce mem m = some (raw, w))
    (done : execOnce (hierarchy mem) stack m = some (ir, m')) (load : ir.itype = .load)
    (denied : Denied m.world.sys ir.memAddr false false) :
    m'.world.sys.Stopped ∧ m'.cpu.gpr = m.cpu.gpr ∧ m'.world.mem = w.mem ↔
      (inDram ir.memAddr = false ∧ Silent mem w.mem ir.memAddr ir.memWidth) ∧
        ∀ rd, ir.rd = some rd → rd ≠ 0 → ir.result = m.cpu.gpr.get rd := by
  obtain ⟨raw', w₁, executed, sys, w', fetched', run, accessed, rfl⟩ := execOnce_steps done
  cases fetched.symm.trans fetched'
  obtain ⟨fn, kind, addr⟩ := irMemAccess_keeps accessed
  rw [kind] at load
  -- neither the fetch nor the execution has changed the globals
  have passed : (pmpCheck m.world.sys m.cpu.pc true false).2 = m.world.sys := by
    rw [pmpCheck_sys, if_pos]
    by_contra refused
    exact allowed (.inl (Bool.eq_false_iff.mpr refused))
  have before : w.sys = m.world.sys := by
    rcases (hierarchy_reports mem).ifetch fetched with same | aborted
    · exact same.trans passed
    · refine absurd ((fetch_stopped_iff running fetched).mp ?_) allowed
      rw [aborted]
      exact Sys.stopped_abort _
  have kept : sys = w.sys := irExecute_access run (.inl load)
  unfold irMemAccess at accessed
  rw [load] at accessed
  obtain ⟨⟨word, w₂⟩, read, same⟩ := Option.map_eq_some_iff.mp accessed
  cases same
  have enforced : w'.sys.Stopped ∧ w'.mem = w.mem ↔
      inDram executed.memAddr = false ∧ Silent mem w.mem executed.memAddr executed.memWidth :=
    (vaddrRead_reads read).enforced_iff (w := { w with sys := sys }) (by rw [kept, before]; exact running)
      (by rw [kept, before]; exact denied)
  rw [← irWriteback_eq_iff, ← enforced]
  exact ⟨fun holds => ⟨⟨holds.1, holds.2.2⟩, holds.2.1⟩, fun holds => ⟨holds.1.1, holds.2, holds.1.2⟩⟩

end Functional

/-! ## Pipelined modes -/

section Inorder

variable {δ β : Type} {mem : MemConfig δ} {cfg : PipeConfig β} {e e' e₀ : Inorder (MemState δ) β} {latch : PipeReg}
  {left : World (MemState δ)}

/-- The pipeline stops before a denied load is written back, if the load is checked at all. -/
theorem inorder_load_enforced_iff (running : e₀.world.sys.state = .running) (valid : (e.pipe.reg .mem).valid = true)
    (load : (e.pipe.reg .mem).ir.itype = .load) (denied : Denied e₀.world.sys (e.pipe.reg .mem).ir.memAddr false false)
    (memory : MemStage (hierarchy mem) (e.pipe.reg .mem) e₀.world latch left) (awake : e.pipe.memStallRem = 0)
    (done : e.pipelineCycle (hierarchy mem) cfg = some e') :
    left.sys.Stopped ∧ e'.cpu.gpr = e.written.gpr ∧ left.mem = e₀.world.mem ↔ inDram (e.pipe.reg .mem).ir.memAddr = false ∧
      Silent mem e₀.world.mem (e.pipe.reg .mem).ir.memAddr (e.pipe.reg .mem).ir.memWidth := by
  have enforced : left.sys.Stopped ∧ left.mem = e₀.world.mem ↔ inDram (e.pipe.reg .mem).ir.memAddr = false ∧
      Silent mem e₀.world.mem (e.pipe.reg .mem).ir.memAddr (e.pipe.reg .mem).ir.memWidth := by
    cases memory with
    | bubble empty => exact nomatch valid.symm.trans empty
    | access _ accessed =>
        unfold irMemAccessLat at accessed
        rw [load] at accessed
        obtain ⟨⟨level, word, w⟩, read, same⟩ := Option.map_eq_some_iff.mp accessed
        cases same
        exact (vaddrReadLevel_reads read).enforced_iff running denied
  have regs : e'.cpu = e.written := by
    unfold Inorder.pipelineCycle at done
    rw [if_neg (by omega)] at done
    obtain ⟨e₁, ran, rfl⟩ := Option.map_eq_some_iff.mp done
    obtain ⟨_, _, _, _, _, cycle⟩ := Inorder.stages_cycle ran
    exact cycle.cpu
  rw [← enforced, regs]
  exact ⟨fun holds => ⟨holds.1, holds.2.2⟩, fun holds => ⟨holds.1, rfl, holds.2⟩⟩

end Inorder

section Ooo

variable {δ γ : Type} {mem : MemConfig δ} {cfg : OooConfig γ} {e e' : Engine (MemState δ) γ} {s : Fin 2}

/-- A denied load is filled before the run ends, but commits in no later cycle. -/
theorem ooo_load_enforced_iff {mshr : Option MshrIdx} (running : e.world.sys.state = .running)
    (denied : Denied e.world.sys (e.ooo.slotEntry .lsu s).ir.memAddr false false)
    (done : e.lsuFill (hierarchy mem) s mshr = some e') :
    e'.world.sys.Stopped ∧ e'.cpu.gpr = e.cpu.gpr ∧ e'.world.mem = e.world.mem ↔
      (inDram (e.ooo.slotEntry .lsu s).ir.memAddr = false ∧
        Silent mem e.world.mem (e.ooo.slotEntry .lsu s).ir.memAddr (e.ooo.slotEntry .lsu s).ir.memWidth) ∧
      (inDram ((e.ooo.slotEntry .lsu s).ir.memAddr &&& 0xffffffff) = true ∨
        mmioBase ≤ (e.ooo.slotEntry .lsu s).ir.memAddr &&& 0xffffffff) := by
  unfold Engine.lsuFill at done
  simp only at done
  change (if !inDram ((e.ooo.slotEntry .lsu s).ir.memAddr &&& 0xffffffff) &&
    decide ((e.ooo.slotEntry .lsu s).ir.memAddr &&& 0xffffffff < mmioBase) then _ else _) = _ at done
  generalize (e.ooo.slotEntry .lsu s).ir.memAddr &&& 0xffffffff = pa at done ⊢
  split at done
  · next unmapped =>
      simp only [Bool.and_eq_true, Bool.not_eq_true', decide_eq_true_eq] at unmapped
      cases done
      have going : ¬e.world.sys.Stopped := e.world.sys.not_stopped running
      have below : ¬mmioBase ≤ pa := BitVec.not_le.mpr unmapped.2
      simp [going, unmapped.1, below]
  · next mapped =>
      obtain ⟨⟨raw, world⟩, read, rfl⟩ := Option.map_eq_some_iff.mp done
      have reached : inDram pa = true ∨ mmioBase ≤ pa := by
        cases dram : inDram pa with
        | true => exact .inl rfl
        | false =>
            simp only [dram, Bool.not_false, Bool.true_and, decide_eq_true_eq] at mapped
            exact .inr (BitVec.not_lt.mp mapped)
      have enforced : world.sys.Stopped ∧ world.mem = e.world.mem ↔ inDram (e.ooo.slotEntry .lsu s).ir.memAddr = false ∧
          Silent mem e.world.mem (e.ooo.slotEntry .lsu s).ir.memAddr (e.ooo.slotEntry .lsu s).ir.memWidth :=
        (vaddrRead_reads read).enforced_iff running denied
      change world.sys.Stopped ∧ e.cpu.gpr = e.cpu.gpr ∧ world.mem = e.world.mem ↔ _
      rw [← enforced]
      exact ⟨fun holds => ⟨⟨holds.1, holds.2.2⟩, reached⟩, fun holds => ⟨holds.1.1, rfl, holds.1.2⟩⟩

/-- The out-of-order engine fetches through the cache only, so no fetch is checked. -/
theorem fetchSlot_unchecked {goesOn : Bool} (done : e.fetchSlot (hierarchy mem) cfg s = some (e', goesOn)) :
    e'.world.sys = e.world.sys := by
  unfold Engine.fetchSlot at done
  simp only at done
  split at done
  · cases done
    rfl
  · next mapped =>
      obtain ⟨⟨word, world⟩, read, same⟩ := Option.map_eq_some_iff.mp done
      have kept : world.sys = e.world.sys := (vaddrIfetch_reads read).cached (by simpa using mapped)
      simp only at same
      split at same
      · split at same <;>
          · cases same
            exact kept
      · cases same
        exact kept

end Ooo

/-! ## All modes -/

/-- When a denied access ends the run without an effect, for each kind of access and each mode. An effect of a fetched
instruction is a change of the registers, the system registers or the memory as the fetch left it; the program counter moves
on in any case. -/
theorem pmp_enforced_iff {δ β γ : Type} (mem : MemConfig δ) :
    -- stores of every mode
    (∀ (w w' : World (MemState δ)) (addr : Word) (len : Nat) (data : Word), w.sys.state = .running →
      Denied w.sys addr false true → (hierarchy mem).write w addr len data = some w' →
        (w'.sys.Stopped ∧ w'.mem = w.mem ↔ inDram addr = false ∧ Idempotent mem w.mem addr len data)) ∧
    -- functional mode: fetches, then loads
    (∀ (stack ir : IRInst) (m m' : Machine (MemState δ)) (raw : Word) (w : World (MemState δ)),
      m.world.sys.state = .running → Denied m.world.sys m.cpu.pc true false → fetchOnce mem m = some (raw, w) →
      execOnce (hierarchy mem) stack m = some (ir, m') →
        (m'.world.sys.Stopped ∧ m'.cpu.gpr = m.cpu.gpr ∧ m'.world = ⟨m.world.sys.abort.counted, w.mem⟩ ↔
          Inert mem stack m raw w ir)) ∧
    (∀ (stack ir : IRInst) (m m' : Machine (MemState δ)) (raw : Word) (w : World (MemState δ)),
      m.world.sys.state = .running → ¬FetchDenied m.world.sys m.cpu.pc → fetchOnce mem m = some (raw, w) →
      execOnce (hierarchy mem) stack m = some (ir, m') → ir.itype = .load → Denied m.world.sys ir.memAddr false false →
        (m'.world.sys.Stopped ∧ m'.cpu.gpr = m.cpu.gpr ∧ m'.world.mem = w.mem ↔
          (inDram ir.memAddr = false ∧ Silent mem w.mem ir.memAddr ir.memWidth) ∧
            ∀ rd, ir.rd = some rd → rd ≠ 0 → ir.result = m.cpu.gpr.get rd)) ∧
    -- in-order mode: fetches, which execute in no later cycle, then loads
    (∀ (w w' : World (MemState δ)) (pc value : Word), w.sys.state = .running → Denied w.sys pc true false →
      (hierarchy mem).ifetch w pc 4 = some (value, w') →
        (w'.sys.Stopped ∧ w'.mem = w.mem ↔
          inDram pc = false ∧ Denied w.sys pc false false ∧ Silent mem w.mem pc 4)) ∧
    (∀ (cfg : PipeConfig β) (e e' e₀ : Inorder (MemState δ) β) (latch : PipeReg) (left : World (MemState δ)),
      e.pipe.memStallRem = 0 → e.pipelineCycle (hierarchy mem) cfg = some e' → Inorder.Checks (hierarchy mem) cfg e e₀ →
      MemStage (hierarchy mem) (e.pipe.reg .mem) e₀.world latch left → e₀.world.sys.state = .running →
      (e.pipe.reg .mem).valid = true → (e.pipe.reg .mem).ir.itype = .load →
      Denied e₀.world.sys (e.pipe.reg .mem).ir.memAddr false false →
        (left.sys.Stopped ∧ e'.cpu.gpr = e.written.gpr ∧ left.mem = e₀.world.mem ↔
          inDram (e.pipe.reg .mem).ir.memAddr = false ∧
            Silent mem e₀.world.mem (e.pipe.reg .mem).ir.memAddr (e.pipe.reg .mem).ir.memWidth)) ∧
    -- out-of-order mode: fetches are never checked; loads; registers change at commit only
    (∀ (cfg : OooConfig γ) (e e' : Engine (MemState δ) γ) (s : Fin 2) (goesOn : Bool), e.world.sys.state = .running →
      e.fetchSlot (hierarchy mem) cfg s = some (e', goesOn) → ¬e'.world.sys.Stopped) ∧
    (∀ (e e' : Engine (MemState δ) γ) (s : Fin 2) (mshr : Option MshrIdx), e.world.sys.state = .running →
      Denied e.world.sys (e.ooo.slotEntry .lsu s).ir.memAddr false false → e.lsuFill (hierarchy mem) s mshr = some e' →
        (e'.world.sys.Stopped ∧ e'.cpu.gpr = e.cpu.gpr ∧ e'.world.mem = e.world.mem ↔
          (inDram (e.ooo.slotEntry .lsu s).ir.memAddr = false ∧
            Silent mem e.world.mem (e.ooo.slotEntry .lsu s).ir.memAddr (e.ooo.slotEntry .lsu s).ir.memWidth) ∧
          (inDram ((e.ooo.slotEntry .lsu s).ir.memAddr &&& 0xffffffff) = true ∨
            mmioBase ≤ (e.ooo.slotEntry .lsu s).ir.memAddr &&& 0xffffffff))) ∧
    (∀ (cfg : OooConfig γ) (e e' : Engine (MemState δ) γ), e.cycle (hierarchy mem) cfg = some e' → ∃ drained committed,
      e.drainStoreBuf (hierarchy mem) cfg = some drained ∧ drained.stageCommit (hierarchy mem) cfg = some committed ∧
        e'.cpu = committed.cpu) := by
  refine ⟨fun _ _ _ _ _ running denied done => store_enforced_iff running denied done,
    fun _ _ _ _ _ _ _ denied fetched done => functional_fetch_enforced_iff denied fetched done,
    fun _ _ _ _ _ _ running allowed fetched done load denied =>
      functional_load_enforced_iff running allowed fetched done load denied, ?_,
    fun _ _ _ _ _ _ awake done _ memory running valid load denied =>
      inorder_load_enforced_iff running valid load denied memory awake done, ?_,
    fun _ _ _ _ running denied done => ooo_load_enforced_iff running denied done, ?_⟩
  · intro w w' pc value running _ fetched
    have reads := vaddrIfetch_reads fetched
    rw [reads.stopped_iff running, and_assoc]
    exact and_congr_right fun form => and_congr_right fun _ => paddrRead_mem_iff (reads.uncached form)
  · intro cfg e e' s goesOn running done
    rw [fetchSlot_unchecked done]
    exact e.world.sys.not_stopped running
  · intro cfg e e' done
    obtain ⟨drained, committed, last, first, second, _, quiet, rfl⟩ := Engine.cycle_counts (hierarchy_reports mem) done
    exact ⟨drained, committed, first, second, quiet.cpu⟩

/-- User mode without any PMP entry: every access is denied. -/
def userSys : Sys := { Sys.init with privLevel := userLevel }

/-- A denied store of zero to a word that is zero. -/
theorem pmp_enforced_iff_zero : ∃ w', (hierarchy (.plain 1)).write ⟨userSys, MemState.init (fun _ => 0) ()⟩
      0xffffffff80000040 4 0 = some w' ∧ w'.sys.Stopped ∧ w'.mem = MemState.init (fun _ => 0) () := by
  refine ⟨_, rfl, ((@pmp_enforced_iff Unit Unit Unit (.plain 1)).1 ⟨userSys, MemState.init (fun _ => 0) ()⟩ _
    0xffffffff80000040 4 0 rfl (by unfold Denied; decide) rfl).mpr ⟨by decide, ?_⟩⟩
  change hostWrite (fun _ => 0) 0x80000040 4 0 = fun _ => 0
  funext byte
  simp +contextual [hostWrite, storeLE, byteOf]

/-- `addi x1, x0, 1`, then nothing. -/
def deniedProgram : List Raw := [0x00100093, 0x00000013, 0x00000013, 0x00000013, 0x00000013, 0x00000013]

/-- The pipeline fetches and retires an instruction that user mode may not execute. -/
theorem denied_fetch_retires : ∃ e, Inorder.run (hierarchy (.plain 1)) .plain 5
      (.init .plain (fun _ => .zero) ⟨.empty, mbase⟩ ⟨userSys, MemState.init (image deniedProgram) ()⟩ () ⟨.empty, 0⟩ false) =
        some e ∧
    Denied userSys mbase true false ∧ e.world.sys.state = .running ∧ e.cpu.gpr.get 1 = 1 := by
  have ran : (Inorder.run (hierarchy (.plain 1)) .plain 5 (.init .plain (fun _ => .zero) ⟨.empty, mbase⟩
      ⟨userSys, MemState.init (image deniedProgram) ()⟩ () ⟨.empty, 0⟩ false)).any (fun e =>
        decide (e.world.sys.state = .running) && e.cpu.gpr.get 1 == 1) = true := by
    decide +kernel
  obtain ⟨e, done, holds⟩ := (Option.any_eq_true _ _).mp ran
  simp only [Bool.and_eq_true, decide_eq_true_eq, beq_iff_eq] at holds
  exact ⟨e, done, by unfold Denied; decide, holds⟩

end Sustemu
