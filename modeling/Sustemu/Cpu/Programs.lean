import Sustemu.Isa.Rv64i
import Sustemu.Cpu.Footprint

/-!
# The functional engine runs RV64I programs

A program of the base set in memory, and a computation of it. Over a coherent
memory the functional engine goes through the states of the computation, as
long as the computation keeps to cacheable memory and leaves its code alone.
-/

set_option autoImplicit false

namespace Sustemu

open Lib Lib.Rv64i

/-! ## One instruction -/

/-- The instruction stands aligned in cacheable memory, accesses cacheable memory inside one line, and does not store to
the program. -/
structure Lib.Rv64i.Instr.Contained (i : Instr) (program : Program) (s : State) : Prop where
  handled : i.Handled
  mapped : inDram s.pc = true
  aligned : s.pc.toNat % 4 = 0
  load : ∀ addr width, i.loads s = some (addr, width) → inDram addr = true ∧ InLine addr width
  store : ∀ addr width data, i.stores s = some (addr, width, data) → inDram addr = true ∧ InLine addr width
  spares : i.Spares s program

/-- The world holds the memory of the state, and no byte of the program was ever stored to. -/
def World.Holds {σ : Type} (w : World σ) (Rep : World σ → Flat → Prop) (program : Program) (s : State) : Prop :=
  ∃ written, Rep w ⟨s.mem, written⟩ ∧ ∀ pc, (program pc).isSome = true → ∀ byte, InCode pc byte → byte ∉ written

/-- The machine is in the state. -/
structure Machine.Models {σ : Type} (m : Machine σ) (Rep : World σ → Flat → Prop) (program : Program) (s : State) : Prop where
  pc : m.cpu.pc = s.pc
  regs : ∀ r, m.cpu.gpr.get r = s.reg r
  code : program.In s.mem
  memory : m.world.Holds Rep program s

section Step

variable {σ : Type} {vm : VMem σ} {Rep : World σ → Flat → Prop} {program : Program} {m : Machine σ} {i : Instr} {s : State}

/-- The code bytes stay unwritten. -/
theorem unwritten_after {written : Set Nat} {ir : IRInst} (effect : ir.Effect i s) (spares : i.Spares s program)
    (fresh : ∀ pc, (program pc).isSome = true → ∀ byte, InCode pc byte → byte ∉ written) :
    ∃ written', (⟨s.mem, written⟩ : Flat).perform ir.write = ⟨(i.exec s).mem, written'⟩ ∧
      ∀ pc, (program pc).isSome = true → ∀ byte, InCode pc byte → byte ∉ written' := by
  refine ⟨((⟨s.mem, written⟩ : Flat).perform ir.write).written, ?_, ?_⟩
  · rw [← effect.perform written]
  · intro pc found byte inside
    rw [effect.write]
    cases stores : i.stores s with
    | none => exact fresh pc found byte inside
    | some store =>
        obtain ⟨addr, width, data⟩ := store
        have apart := spares addr width data stores pc found
        rintro (before | ⟨low, high⟩)
        · exact fresh pc found byte inside before
        · obtain ⟨below, above⟩ := inside
          unfold Apart at apart
          simp only at low high
          omega

/-- An access to cacheable memory does not fail. -/
theorem irMemAccess_exists {f : Flat} {w : World σ} {executed : IRInst} (law : CoherentMemory vm Rep) (rep : Rep w f)
    (access : executed.itype = .load ∨ executed.itype = .store →
      inDram executed.memAddr = true ∧ InLine executed.memAddr executed.memWidth) :
    ∃ ir w', irMemAccess vm executed w = some (ir, w') := by
  unfold irMemAccess
  split
  · next load =>
      obtain ⟨value, w', read, _⟩ := law.read executed.memWidth rep (access (.inl load)).1
      exact ⟨_, w', by rw [read]; rfl⟩
  · next store =>
      obtain ⟨w', written, _⟩ := law.write executed.src2Val rep (access (.inr store)).1 (access (.inr store)).2
      exact ⟨_, w', by rw [written]; rfl⟩
  · exact ⟨_, w, rfl⟩

/-- The accesses of a contained instruction are cacheable and inside their lines. -/
theorem Lib.Rv64i.Instr.Contained.access {ir : IRInst} (contained : i.Contained program s) (effect : ir.Effect i s)
    (accesses : ir.itype = .load ∨ ir.itype = .store) : inDram ir.memAddr = true ∧ InLine ir.memAddr ir.memWidth := by
  rcases accesses with load | store
  · exact contained.load _ _ (by rw [← effect.loads, if_pos load])
  · exact contained.store _ _ _ (by rw [← effect.stores, if_pos store])

theorem IRInst.Realizes.permitted {ir : IRInst} {i : Instr} {s : State} (realizes : ir.Realizes i s) : ir.Permitted := by
  unfold IRInst.Permitted
  rw [realizes.fn]
  cases i with
  | branch op _ _ _ | load op _ _ _ | store op _ _ _ | aluImm op _ _ _ | shiftImm op _ _ _ | alu op _ _ _
  | shiftImmW op _ _ _ | aluW op _ _ _ => cases op <;> trivial
  | lui | auipc | jal | jalr | addiw => trivial

theorem Machine.Models.next (law : CoherentMemory vm Rep) (models : m.Models Rep program s)
    (fetched : program s.pc = some i) (contained : i.Contained program s) (stack : IRInst) :
    ∃ ir m', execOnce vm stack m = some (ir, m') ∧ ir.Realizes i s ∧ m'.Models Rep program (i.exec s) ∧
      m'.world.sys = (pmpCheck m.world.sys m.cpu.pc true false).2.counted := by
  obtain ⟨written, rep, fresh⟩ := models.memory
  have found : (program s.pc).isSome = true := by rw [fetched]; rfl
  have checked : Rep { m.world with sys := (pmpCheck m.world.sys m.cpu.pc true false).2 } ⟨s.mem, written⟩ :=
    law.sys _ rep (pmpCheck_hartid ..)
  obtain ⟨word, w, fetch, sys, after, same⟩ := law.ifetch 4 checked (models.pc ▸ contained.mapped)
  have value : word.setWidth 32 = i.encode := by
    rw [same (.of_aligned (models.pc ▸ contained.aligned)) fun byte low high =>
      fresh s.pc found byte (models.pc ▸ ⟨low, high⟩), models.pc, models.code s.pc i fetched,
      BitVec.setWidth_setWidth_of_le _ (by decide), BitVec.setWidth_eq]
  obtain ⟨run, executor, realizes⟩ := irExecute_realizes contained.handled models.regs stack
  have executed : irExecute (vm.perf w) (irDecode m.cpu.gpr (word.setWidth 32) m.cpu.pc (m.cpu.pc + 4) stack) w.sys =
      some (run (irDecode m.cpu.gpr i.encode s.pc (s.pc + 4) stack), w.sys) := by
    rw [value, models.pc]
    unfold irExecute
    rw [executor]
  generalize irDecode m.cpu.gpr i.encode s.pc (s.pc + 4) stack = decoded at executor realizes executed
  have kind : ((run decoded).loaded s.mem).itype = (run decoded).itype ∧
      ((run decoded).loaded s.mem).memAddr = (run decoded).memAddr ∧
      ((run decoded).loaded s.mem).memWidth = (run decoded).memWidth := by
    unfold IRInst.loaded
    split <;> exact ⟨rfl, rfl, rfl⟩
  have access := fun accesses => contained.access realizes.toEffect accesses
  rw [kind.1, kind.2.1, kind.2.2] at access
  obtain ⟨ir, w', accessed⟩ := irMemAccess_exists law after access
  obtain ⟨rfl, sys', stored⟩ := irMemAccess_performs law after access accessed
  obtain ⟨written', performed, fresh'⟩ := unwritten_after realizes.toEffect contained.spares fresh
  refine ⟨_, ⟨⟨irWriteback ((run decoded).loaded s.mem) m.cpu.gpr, ((run decoded).loaded s.mem).dnpc⟩,
    { w' with sys := w'.sys.counted }⟩, ?_, realizes, ⟨realizes.next, realizes.writeback models.regs,
      models.code.exec contained.spares, written', ?_, fresh'⟩, ?_⟩
  · unfold execOnce
    simp only [fetch, Option.bind_eq_bind, Option.bind_some]
    rw [executed]
    simp only [Option.bind_some]
    rw [accessed]
    rfl
  · rw [← performed]
    exact law.sys _ stored rfl
  · change w'.sys.counted = _
    rw [sys', sys]

end Step

/-! ## Computations -/

/-- Every instruction of the computation is contained. -/
def Lib.Rv64i.Computation.Contained {program : Program} (c : Computation program) : Prop :=
  ∀ n, (c.inst n).Contained program (c.state n)

section Runs

variable {σ : Type} {vm : VMem σ} {Rep : World σ → Flat → Prop} {program : Program} {c : Computation program}
  {m : Machine σ}

/-- A run of the functional engine follows the computation. -/
structure Trace.Computes (t : Trace vm) (Rep : World σ → Flat → Prop) (c : Computation program) : Prop where
  models : ∀ n, (t.state n).Models Rep program (c.state n)
  realizes : ∀ n, (t.inst n).Realizes (c.inst n) (c.state n)
  sys : ∀ n, (t.state (n + 1)).world.sys = (pmpCheck (t.state n).world.sys (t.state n).cpu.pc true false).2.counted

/-- The functional engine is never stuck, and computes what the program computes. -/
theorem Lib.Rv64i.Computation.Contained.trace (contained : c.Contained) (law : CoherentMemory vm Rep)
    (models : m.Models Rep program (c.state 0)) (stack : Nat → IRInst) :
    ∃ t : Trace vm, t.stack = stack ∧ t.state 0 = m ∧ t.Computes Rep c := by
  have holds : ∀ n, (Trace.iterate vm stack m n).Models Rep program (c.state n) := by
    intro n
    induction n with
    | zero => exact models
    | succ n ih =>
        obtain ⟨ir, m', done, _, after, _⟩ := ih.next law (c.fetched n) (contained n) (stack n)
        simp only [Trace.iterate, done]
        rw [c.step]
        exact after
  have total : ∀ n, (execOnce vm (stack n) (Trace.iterate vm stack m n)).isSome = true := by
    intro n
    obtain ⟨ir, m', done, _⟩ := (holds n).next law (c.fetched n) (contained n) (stack n)
    rw [done]
    rfl
  refine ⟨.ofRun vm stack m total, rfl, rfl, holds, ?_, ?_⟩
  · intro n
    obtain ⟨ir, m', done, realizes, _⟩ := (holds n).next law (c.fetched n) (contained n) (stack n)
    simp only [Trace.ofRun, done, Option.get_some]
    exact realizes
  · intro n
    obtain ⟨ir, m', done, _, _, sys⟩ := (holds n).next law (c.fetched n) (contained n) (stack n)
    simp only [Trace.ofRun, Trace.iterate, done]
    exact sys

theorem Trace.execMany_state (t : Trace vm) (n : Nat) :
    execMany vm t.stack n (t.state 0) = some ((List.range n).map t.inst, t.state n) := by
  induction n with
  | zero => rfl
  | succ n ih =>
      simp only [execMany, ih, Option.bind_eq_bind, Option.bind_some, t.step n]
      rw [List.range_succ, List.map_append]
      rfl

namespace Trace.Computes

variable {t : Trace vm} (computes : t.Computes Rep c)

include computes

theorem pc (n : Nat) : t.pc n = (c.state n).pc := (computes.models n).pc

theorem memory {f : Flat} (start : f.bytes = (c.state 0).mem) (n : Nat) : (t.memory f n).bytes = (c.state n).mem := by
  induction n with
  | zero => exact start
  | succ n ih =>
      rw [c.step, ← (computes.realizes n).perform (t.memory f n).written, ← ih]
      rfl

theorem contained (contained : c.Contained) : t.Contained where
  mapped := fun n => computes.pc n ▸ (contained n).mapped
  aligned := fun n => computes.pc n ▸ (contained n).aligned
  accesses := fun n => (contained n).access (computes.realizes n).toEffect
  code := by
    intro i n _ w write
    rw [(computes.realizes i).write] at write
    obtain ⟨⟨addr, width, data⟩, stores, rfl⟩ := Option.map_eq_some_iff.mp write
    rw [computes.pc n]
    exact (contained i).spares addr width data stores _ (by rw [c.fetched n]; rfl)

/-- Plain instructions leave the privilege level and the protection alone. -/
theorem unprotected (machine : (t.state 0).world.sys.privLevel = machineLevel)
    (off : (t.state 0).world.sys.pmpOnCount = 0) (n : Nat) :
    (t.state n).world.sys.privLevel = machineLevel ∧ (t.state n).world.sys.pmpOnCount = 0 := by
  induction n with
  | zero => exact ⟨machine, off⟩
  | succ n ih =>
      have allowed : (pmpCheck (t.state n).world.sys (t.state n).cpu.pc true false).2 = (t.state n).world.sys := by
        unfold pmpCheck
        rw [if_pos ⟨ih.2, ih.1⟩]
      rw [computes.sys n, allowed]
      exact ih

theorem regular (contained : c.Contained) (within : ∀ n, inDram ((c.state n).pc + 4) = true)
    (machine : (t.state 0).world.sys.privLevel = machineLevel) (off : (t.state 0).world.sys.pmpOnCount = 0) : t.Regular where
  contained := computes.contained contained
  next := fun n => computes.pc n ▸ within n
  machine := fun n => (computes.unprotected machine off n).1
  unprotected := fun n => (computes.unprotected machine off n).2
  permitted := fun n => (computes.realizes n).permitted
  divisions := fun n => (computes.realizes n).divDefined

end Trace.Computes

end Runs

/-! ## Data -/

/-- The instruction loads or stores the bytes at an address. -/
def Lib.Rv64i.Instr.Accesses (i : Instr) (s : State) (addr : Word) (width : Nat) : Prop :=
  i.loads s = some (addr, width) ∨ ∃ data, i.stores s = some (addr, width, data)

/-- Every load is covered by each earlier store, or apart from it. -/
def Lib.Rv64i.Computation.Nested {program : Program} (c : Computation program) : Prop :=
  ∀ i n, i < n → ∀ storeAddr storeWidth data loadAddr loadWidth,
    (c.inst i).stores (c.state i) = some (storeAddr, storeWidth, data) →
    (c.inst n).loads (c.state n) = some (loadAddr, loadWidth) →
      Covers storeAddr.toNat storeWidth loadAddr.toNat loadWidth ∨ Apart storeAddr.toNat storeWidth loadAddr.toNat loadWidth

section Data

variable {program program' : Program} {σ τ : Type} {vm : VMem σ} {vm' : VMem τ} {Rep : World σ → Flat → Prop}
  {Rep' : World τ → Flat → Prop} {c : Computation program} {c' : Computation program'} {t : Trace vm} {t' : Trace vm'}

/-- The first computation shares no line of data with the second one and does not store to its code. -/
structure Lib.Rv64i.Computation.Isolated (c : Computation program) (c' : Computation program') : Prop where
  lines : ∀ i j addr width addr' width', (c.inst i).Accesses (c.state i) addr width →
    (c'.inst j).Accesses (c'.state j) addr' width' → addr.toNat / blockSize ≠ addr'.toNat / blockSize
  code : ∀ i addr width data, (c.inst i).stores (c.state i) = some (addr, width, data) →
    ∀ n, Apart addr.toNat width (c'.state n).pc.toNat 4

theorem IRInst.Effect.accesses {ir : IRInst} {i : Instr} {s : State} (effect : ir.Effect i s) {addr : Word} {width : Nat} :
    i.Accesses s addr width ↔ (ir.itype = .load ∨ ir.itype = .store) ∧ ir.memAddr = addr ∧ ir.memWidth = width := by
  unfold Instr.Accesses
  rw [← effect.loads, ← effect.stores]
  constructor
  · rintro (load | ⟨data, store⟩)
    · split at load
      · next isLoad =>
          cases load
          exact ⟨.inl isLoad, rfl, rfl⟩
      · cases load
    · split at store
      · next isStore =>
          cases store
          exact ⟨.inr isStore, rfl, rfl⟩
      · cases store
  · rintro ⟨load | store, rfl, rfl⟩
    · exact .inl (if_pos load)
    · exact .inr ⟨_, if_pos store⟩

theorem Trace.Computes.isolated (computes : t.Computes Rep c) (computes' : t'.Computes Rep' c') (isolated : c.Isolated c') :
    t.Isolated t' where
  lines := fun i j access access' => isolated.lines i j _ _ _ _
    ((computes.realizes i).toEffect.accesses.mpr ⟨access, rfl, rfl⟩)
    ((computes'.realizes j).toEffect.accesses.mpr ⟨access', rfl, rfl⟩)
  code := by
    intro i n w write
    rw [(computes.realizes i).write] at write
    obtain ⟨⟨addr, width, data⟩, stores, rfl⟩ := Option.map_eq_some_iff.mp write
    rw [computes'.pc n]
    exact isolated.code i addr width data stores n

end Data

/-! ## The cache hierarchy -/

/-- From reset over a memory that holds the program, the functional engine computes what the program computes. -/
theorem functional_computes {δ : Type} (devices : Devices δ) {program : Program} (c : Computation program)
    (contained : c.Contained) (loaded : program.In (c.state 0).mem) (cpu : CPUState) (atPc : cpu.pc = (c.state 0).pc)
    (regs : ∀ r, cpu.gpr.get r = (c.state 0).reg r) (cores : Nat) (sys : Sys) (hart : cores ≤ 1 → sys.hartid = 0) (dev : δ)
    (stack : Nat → IRInst) (n : Nat) : ∃ insts m written,
      execMany (hierarchy ⟨cores, prefetchHint, devices⟩) stack n ⟨cpu, ⟨sys, MemState.init (c.state 0).mem dev⟩⟩ =
        some (insts, m) ∧
      m.cpu.pc = (c.state n).pc ∧ (∀ r, m.cpu.gpr.get r = (c.state n).reg r) ∧
      Represents ⟨cores, prefetchHint, devices⟩ ⟨(c.state n).mem, written⟩ m.world := by
  have law : CoherentMemory (hierarchy ⟨cores, prefetchHint, devices⟩)
      fun w f => Represents ⟨cores, prefetchHint, devices⟩ f w := hierarchy_coherent rfl
  obtain ⟨t, rfl, start, computes⟩ := contained.trace law
    (m := ⟨cpu, ⟨sys, MemState.init (c.state 0).mem dev⟩⟩)
    ⟨atPc, regs, loaded, ∅, ⟨init_represents _ _ dev, hart⟩, fun _ _ _ _ => Set.notMem_empty _⟩ stack
  obtain ⟨written, rep, _⟩ := (computes.models n).memory
  exact ⟨_, _, written, start ▸ t.execMany_state n, (computes.models n).pc, (computes.models n).regs, rep⟩

/-! ## A program in the reset image -/

/-- Instructions from the reset address on stand in the image of their encodings. -/
theorem image_holds {code : List Instr} (short : code.length ≤ 0x1000000) :
    (Program.ofList mbase code).In (image (code.map Instr.encode)) := by
  intro pc i found
  obtain ⟨k, offset, here⟩ := Program.ofList_eq_some found
  have inside : k < code.length := (List.getElem?_eq_some_iff.mp here).1
  have atPc : pc.toNat = mbase.toNat + 4 * k := by
    have whole : pc = mbase + (pc - mbase) := by rw [BitVec.add_comm, BitVec.sub_add_cancel]
    have base : mbase.toNat = 0x80000000 := rfl
    rw [whole, BitVec.toNat_add, offset, base]
    omega
  refine BitVec.eq_of_getLsbD_eq fun bit small => ?_
  rw [getLsbD_loadLE _ _ _ _ (by decide), BitVec.getLsbD_setWidth, decide_eq_true small, Bool.true_and, atPc]
  by_cases word : bit < 32
  · have index : (mbase.toNat + 4 * k + bit / 8 - mbase.toNat) / 4 = k := by omega
    have byte : (mbase.toNat + 4 * k + bit / 8 - mbase.toNat) % 4 = bit / 8 := by omega
    unfold image
    rw [index, List.getElem?_map, here, decide_eq_true (by omega), Bool.true_and]
    simp only [Option.map_some]
    rw [if_pos (by omega), byte, BitVec.getLsbD_extractLsb', decide_eq_true (by omega), Bool.true_and,
      Nat.div_add_mod]
  · rw [decide_eq_false (by omega), Bool.false_and, BitVec.getLsbD_of_ge _ _ (Nat.not_lt.mp word)]

/-- A loop that counts in the word at `0x80001000`, or past its first instruction in the word `x2` points to. -/
def counting : List Instr :=
  [.auipc 2 1, .load .ld 1 2 0, .aluImm .add 1 1 1, .store .sd 2 1 0, .jal 0 (BitVec.ofInt 20 (-6))]

/-- A doubleword in memory behind the loop, inside a line. -/
structure BehindLoop (word : Word) : Prop where
  mapped : inDram word = true
  inLine : InLine word 8
  behind : 0x80000014 ≤ word.toNat

instance (word : Word) : Decidable (BehindLoop word) :=
  decidable_of_iff (inDram word = true ∧ InLine word 8 ∧ 0x80000014 ≤ word.toNat)
    ⟨fun all => ⟨all.1, all.2.1, all.2.2⟩, fun here => ⟨here.mapped, here.inLine, here.behind⟩⟩

/-- The loop runs, with the address of its word in `x2`. -/
structure Counts (word : Word) (s : State) : Prop where
  known : BehindLoop word
  pc : s.pc = mbase ∧ word = 0x80001000 ∨ s.pc = mbase + 4 ∨ s.pc = mbase + 8 ∨ s.pc = mbase + 12 ∨ s.pc = mbase + 16
  word : s.pc ≠ mbase → s.reg 2 = word

/-- Instructions of the loop access its word only. -/
structure CountsBy (word : Word) (i : Instr) (s : State) : Prop where
  contained : i.Contained (.ofList mbase counting) s
  within : inDram (s.pc + 4) = true
  load : ∀ addr width, i.loads s = some (addr, width) → addr = word ∧ width = 8
  store : ∀ addr width data, i.stores s = some (addr, width, data) → addr = word ∧ width = 8

/-- An instruction of the loop without an access. -/
theorem CountsBy.of_idle {word : Word} {i : Instr} {s : State} (handled : i.Handled) (mapped : inDram s.pc = true)
    (aligned : s.pc.toNat % 4 = 0) (within : inDram (s.pc + 4) = true) (idle : i.loads s = none) (quiet : i.stores s = none) :
    CountsBy word i s where
  contained :=
    { handled := handled
      mapped := mapped
      aligned := aligned
      load := fun _ _ loads => absurd (idle.symm.trans loads) (by simp)
      store := fun _ _ _ stores => absurd (quiet.symm.trans stores) (by simp)
      spares := fun _ _ _ stores => absurd (quiet.symm.trans stores) (by simp) }
  within := within
  load := fun _ _ loads => absurd (idle.symm.trans loads) (by simp)
  store := fun _ _ _ stores => absurd (quiet.symm.trans stores) (by simp)

section Loop

variable {word : Word} (known : BehindLoop word)

include known

/-- No instruction of the loop stands at its word. -/
theorem counting_spares {i : Instr} {s : State}
    (store : ∀ addr width data, i.stores s = some (addr, width, data) → addr = word ∧ width = 8) :
    i.Spares s (.ofList mbase counting) := by
  intro addr width data stores pc found
  obtain ⟨rfl, rfl⟩ := store addr width data stores
  obtain ⟨i', here⟩ := Option.isSome_iff_exists.mp found
  obtain ⟨k, offset, here⟩ := Program.ofList_eq_some here
  have inside : k < 5 := (List.getElem?_eq_some_iff.mp here).1
  have whole : pc = mbase + (pc - mbase) := by rw [BitVec.add_comm, BitVec.sub_add_cancel]
  have base : mbase.toNat = 0x80000000 := rfl
  have above := known.behind
  right
  rw [whole, BitVec.toNat_add, offset, base]
  omega

/-- The word is cacheable and does not cross a line. -/
theorem counting_word {addr : Word} {width : Nat} (same : addr = word ∧ width = 8) :
    inDram addr = true ∧ InLine addr width := by
  obtain ⟨rfl, rfl⟩ := same
  exact ⟨known.mapped, known.inLine⟩

end Loop

theorem Counts.next {word : Word} {s : State} (counts : Counts word s) :
    ∃ i, Program.ofList mbase counting s.pc = some i ∧ CountsBy word i s ∧ Counts word (i.exec s) := by
  obtain ⟨known, pc, same⟩ := counts
  have addr : s.pc ≠ mbase → s.reg 2 + (0 : BitVec 12).signExtend 64 = word := by
    intro later
    rw [same later]
    exact BitVec.add_zero word
  rcases pc with ⟨pc, first⟩ | pc | pc | pc | pc
  · refine ⟨.auipc 2 1, by rw [pc]; rfl, ?_, known, .inr (.inl ?_), fun _ => ?_⟩
    · exact .of_idle trivial (by rw [pc]; rfl) (by rw [pc]; rfl) (by rw [pc]; rfl) rfl rfl
    · change s.pc + 4 = _
      rw [pc]
    · rw [Instr.reg_exec]
      change (if (2 : Fin 32) = 0 then _ else if (2 : Fin 32) = 2 then s.pc + _ else _) = _
      rw [if_neg (by decide), if_pos rfl, pc, first]
      decide
  · have later : s.pc ≠ mbase := by rw [pc]; decide
    have loads : Instr.loads (.load .ld 1 2 0) s = some (word, 8) := by rw [← addr later]; rfl
    have only : ∀ addr width, Instr.loads (.load .ld 1 2 0) s = some (addr, width) → addr = word ∧ width = 8 := by
      rintro _ _ here
      cases loads.symm.trans here
      exact ⟨rfl, rfl⟩
    refine ⟨.load .ld 1 2 0, by rw [pc]; rfl, ⟨⟨trivial, by rw [pc]; rfl, by rw [pc]; rfl, ?_, ?_, ?_⟩, by rw [pc]; rfl, only, ?_⟩,
      known, .inr (.inr (.inl ?_)), fun _ => ?_⟩
    · exact fun addr width here => counting_word known (only addr width here)
    · rintro _ _ _ ⟨⟩
    · exact counting_spares known (by rintro _ _ _ ⟨⟩)
    · rintro _ _ _ ⟨⟩
    · change s.pc + 4 = _
      rw [pc]
      rfl
    · rw [Instr.reg_exec]
      exact same later
  · have later : s.pc ≠ mbase := by rw [pc]; decide
    refine ⟨.aluImm .add 1 1 1, by rw [pc]; rfl, ?_, known, .inr (.inr (.inr (.inl ?_))), fun _ => ?_⟩
    · exact .of_idle trivial (by rw [pc]; rfl) (by rw [pc]; rfl) (by rw [pc]; rfl) rfl rfl
    · change s.pc + 4 = _
      rw [pc]
      rfl
    · rw [Instr.reg_exec]
      exact same later
  · have later : s.pc ≠ mbase := by rw [pc]; decide
    have stores : Instr.stores (.store .sd 2 1 0) s = some (word, 8, s.reg 1) := by rw [← addr later]; rfl
    have only : ∀ addr width data, Instr.stores (.store .sd 2 1 0) s = some (addr, width, data) →
        addr = word ∧ width = 8 := by
      rintro _ _ _ here
      cases stores.symm.trans here
      exact ⟨rfl, rfl⟩
    refine ⟨.store .sd 2 1 0, by rw [pc]; rfl, ⟨⟨trivial, by rw [pc]; rfl, by rw [pc]; rfl, ?_, ?_,
      counting_spares known only⟩, by rw [pc]; rfl, ?_, only⟩, known, .inr (.inr (.inr (.inr ?_))), fun _ => ?_⟩
    · rintro _ _ ⟨⟩
    · exact fun addr width data here => counting_word known (only addr width data here)
    · rintro _ _ ⟨⟩
    · change s.pc + 4 = _
      rw [pc]
      rfl
    · exact same later
  · have later : s.pc ≠ mbase := by rw [pc]; decide
    refine ⟨.jal 0 (BitVec.ofInt 20 (-6)), by rw [pc]; rfl, ?_, known, .inr (.inl ?_), fun _ => ?_⟩
    · exact .of_idle trivial (by rw [pc]; rfl) (by rw [pc]; rfl) (by rw [pc]; rfl) rfl rfl
    · change s.pc + _ = _
      rw [pc]
      decide
    · rw [Instr.reg_exec]
      exact same later

/-- Inside the loop, with the address of its word in `x2`. -/
def countingAt (word : Word) : State :=
  ⟨mbase + 4, fun r => if r = 2 then word else 0, image (counting.map Instr.encode)⟩

theorem countingAt_regs (word : Word) (r : Reg) : (RegFile.empty.set 2 word).get r = (countingAt word).reg r := by
  by_cases pointer : r = 2
  · rw [pointer, RegFile.get_set_self _ _ (by decide)]
    simp [countingAt, State.reg]
  · rw [RegFile.get_set_of_ne _ _ pointer]
    simp [countingAt, State.reg, RegFile.empty, pointer]

theorem countingAt_holds (word : Word) : (Program.ofList mbase counting).In (countingAt word).mem := image_holds (by decide)

/-- The loop at reset. -/
def countingStart : State := ⟨mbase, fun _ => 0, image (counting.map Instr.encode)⟩

theorem counting_holds : (Program.ofList mbase counting).In countingStart.mem := image_holds (by decide)

theorem countingStart_regs (r : Reg) : RegFile.empty.get r = countingStart.reg r := by
  simp [countingStart, State.reg, RegFile.empty]

/-- The loop never leaves its instructions and its word. -/
theorem Counts.computation {word : Word} {s : State} (initial : Counts word s) :
    ∃ c : Computation (.ofList mbase counting), c.state 0 = s ∧ ∀ n, CountsBy word (c.inst n) (c.state n) := by
  have keeps : ∀ s, Counts word s → ∃ i, Program.ofList mbase counting s.pc = some i ∧ Counts word (i.exec s) := by
    intro s counts
    obtain ⟨i, found, _, after⟩ := counts.next
    exact ⟨i, found, after⟩
  obtain ⟨c, start, counts⟩ := Computation.exists_of_invariant initial keeps
  refine ⟨c, start, fun n => ?_⟩
  obtain ⟨i, found, here, _⟩ := (counts n).next
  cases found.symm.trans (c.fetched n)
  exact here

theorem countingAt_computation {word : Word} (known : BehindLoop word) :
    ∃ c : Computation (.ofList mbase counting), c.state 0 = countingAt word ∧
      ∀ n, CountsBy word (c.inst n) (c.state n) :=
  Counts.computation ⟨known, .inr (.inl rfl), fun _ => by simp [countingAt, State.reg]⟩

theorem counting_computation : ∃ c : Computation (.ofList mbase counting),
    c.state 0 = countingStart ∧ ∀ n, CountsBy 0x80001000 (c.inst n) (c.state n) :=
  Counts.computation ⟨by decide, .inl ⟨rfl, rfl⟩, fun later => absurd rfl later⟩

/-- The functional engine runs the loop. -/
theorem counting_trace (cores : Nat) {word : Word} (known : BehindLoop word) (sys : Sys) (hart : cores ≤ 1 → sys.hartid = 0) :
    ∃ (c : Computation (.ofList mbase counting)) (t : Trace (hierarchy (.plain cores))),
      t.state 0 = ⟨⟨RegFile.empty.set 2 word, mbase + 4⟩, ⟨sys, MemState.init (image (counting.map Instr.encode)) ()⟩⟩ ∧
      t.Computes (fun w f => Represents (.plain cores) f w) c ∧ ∀ n, CountsBy word (c.inst n) (c.state n) := by
  obtain ⟨c, start, counts⟩ := countingAt_computation known
  obtain ⟨t, _, begins, computes⟩ := Computation.Contained.trace (fun n => (counts n).contained)
    (hierarchy_coherent (show (MemConfig.plain cores).prefetchHint = _ from rfl))
    (m := ⟨⟨RegFile.empty.set 2 word, mbase + 4⟩, ⟨sys, MemState.init (image (counting.map Instr.encode)) ()⟩⟩)
    ⟨by rw [start]; rfl, by rw [start]; exact countingAt_regs word, by rw [start]; exact countingAt_holds word,
      ∅, by rw [start]; exact ⟨init_represents _ _ _, hart⟩, fun _ _ _ _ => Set.notMem_empty _⟩ fun _ => .zero
  exact ⟨c, t, begins, computes, counts⟩

/-- Loads of the loop read what its stores write. -/
theorem CountsBy.nested {word : Word} {c : Computation (.ofList mbase counting)}
    (counts : ∀ n, CountsBy word (c.inst n) (c.state n)) : c.Nested := by
  intro i n _ storeAddr storeWidth data loadAddr loadWidth stores loads
  obtain ⟨rfl, rfl⟩ := (counts i).store _ _ _ stores
  obtain ⟨rfl, rfl⟩ := (counts n).load _ _ loads
  exact .inl ⟨Nat.le_refl _, Nat.le_refl _⟩

/-- Loops with words in different lines share no data. -/
theorem CountsBy.isolated {word word' : Word} {c c' : Computation (.ofList mbase counting)}
    (counts : ∀ n, CountsBy word (c.inst n) (c.state n)) (counts' : ∀ n, CountsBy word' (c'.inst n) (c'.state n))
    (apart : word.toNat / blockSize ≠ word'.toNat / blockSize) : c.Isolated c' where
  lines := by
    have only : ∀ {word : Word} {c : Computation (.ofList mbase counting)}, (∀ n, CountsBy word (c.inst n) (c.state n)) →
        ∀ n addr width, (c.inst n).Accesses (c.state n) addr width → addr = word := by
      rintro word c counts n addr width (loads | ⟨data, stores⟩)
      · exact ((counts n).load addr width loads).1
      · exact ((counts n).store addr width data stores).1
    intro i j addr width addr' width' access access'
    rw [only counts i addr width access, only counts' j addr' width' access']
    exact apart
  code := fun i addr width data stores n =>
    (counts i).contained.spares addr width data stores _ (by rw [c'.fetched n]; rfl)

/-- The words in which two harts count, in different lines. -/
def countingWord (h : Fin 2) : Word := if h = 0 then 0x80000038 else 0x80002000

theorem countingWord_behind (h : Fin 2) : BehindLoop (countingWord h) := by
  revert h
  decide

theorem countingWord_apart (h : Fin 2) :
    (countingWord h).toNat / blockSize ≠ (countingWord (otherHart h)).toNat / blockSize := by
  revert h
  decide

def countingArch (h : Fin 2) : CoreArch := .save ⟨RegFile.empty.set 2 (countingWord h), mbase + 4⟩ Sys.init

/-- Eight hundred instructions of the loop. -/
theorem functional_computes_counting : ∃ (c : Computation (.ofList mbase counting)) (insts : List IRInst)
    (m : Machine (MemState Unit)) (written : Set Nat), c.state 0 = countingStart ∧
      execMany (hierarchy (.plain 1)) (fun _ => .zero) 800
        ⟨⟨.empty, mbase⟩, ⟨Sys.init, MemState.init (c.state 0).mem ()⟩⟩ = some (insts, m) ∧
      m.cpu.pc = (c.state 800).pc ∧ (∀ r, m.cpu.gpr.get r = (c.state 800).reg r) ∧
      Represents (.plain 1) ⟨(c.state 800).mem, written⟩ m.world := by
  obtain ⟨c, start, counts⟩ := counting_computation
  obtain ⟨insts, m, written, runs⟩ := functional_computes Devices.none c (fun n => (counts n).contained)
    (start ▸ counting_holds) ⟨.empty, mbase⟩ (by rw [start]; rfl) (start ▸ countingStart_regs) 1 Sys.init (fun _ => rfl) ()
    (fun _ => .zero) 800
  exact ⟨c, insts, m, written, start, runs⟩

end Sustemu
