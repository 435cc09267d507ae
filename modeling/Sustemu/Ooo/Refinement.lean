import Sustemu.Ooo.Results
import Sustemu.Cpu.Programs

/-!
# The out-of-order engine refines the functional engine

A functional run is given as a trace. Instruction `n` of the trace stands at
position `n - c` of the instructions in flight once `c` have committed. As far
as the program counters in flight are those of the trace, the instructions are
those of the trace and completed ones have its results; whatever is fetched on
a wrong path is flushed before it reaches the head.
-/

set_option autoImplicit false

namespace Sustemu

open Lib Lib.Rv64i Engine

/-- What an instruction leaves behind: where it was, the register it wrote, and the store it performed. -/
structure Retired where
  pc : Word
  write : Option (Reg × Word)
  store : Option (Word × Nat × Word)
  deriving DecidableEq

/-- An instruction retired by the functional engine. -/
def IRInst.retired (ir : IRInst) : Retired where
  pc := ir.pc
  write := (ir.rd.filter (· ≠ 0)).map fun rd => (rd, ir.result)
  store := if ir.itype = .store then some (ir.memAddr, ir.memWidth, ir.src2Val) else none

/-- An instruction retired by a commit that wrote `value`. -/
def ROBEntry.retired (entry : ROBEntry) (value : Word) : Retired where
  pc := entry.ir.pc
  write := entry.dest.map fun rd => (rd, value)
  store := if entry.ir.itype = .store then some (entry.ir.memAddr, entry.ir.memWidth, entry.storeData) else none

/-- The instructions retired so far. -/
def retirements {σ : Type} (log : List (Event σ)) : List Retired :=
  log.filterMap fun event =>
    match event with
    | .commit entry value => some (entry.retired value)
    | _ => none

theorem retirements_append {σ : Type} (log extra : List (Event σ)) :
    retirements (log ++ extra) = retirements log ++ retirements extra := List.filterMap_append ..

theorem retirements_quiet {σ : Type} (log : List (Event σ)) {extra : List (Event σ)}
    (quiet : ∀ event ∈ extra, ∀ entry value, event ≠ .commit entry value) :
    retirements (log ++ extra) = retirements log := by
  have none : retirements extra = [] := by
    apply List.filterMap_eq_nil_iff.mpr
    intro event member
    cases event with
    | commit entry value => exact absurd rfl (quiet _ member entry value)
    | pop | fill | drain | logLine | mismatch => rfl
  rw [retirements_append, none, List.append_nil]

/-! ## Plain programs -/

namespace Trace

variable {σ : Type} {vm : VMem σ} (t : Trace vm)

/-- The trace executes plain instructions, and a load finds its bytes in memory or in one earlier store. -/
structure Ordinary : Prop where
  contained : t.Contained
  plain : ∀ n, (t.inst n).itype.Plain = true
  divisions : ∀ n, (t.inst n).divDefined = true
  loads : ∀ i n, i < n → ∀ w ∈ (t.inst i).write, (t.inst n).itype = .load →
    Covers w.addr w.width (t.inst n).memAddr.toNat (t.inst n).memWidth ∨
      Apart w.addr w.width (t.inst n).memAddr.toNat (t.inst n).memWidth

/-- Loads and stores have the opcodes by which the engine knows them, with 11 in the lowest bits. -/
structure Standard : Prop extends t.Ordinary where
  encoded : ∀ n, (t.inst n).itype = .load ∨ (t.inst n).itype = .store → (t.inst n).raw.toNat % 4 = 3

end Trace

theorem Trace.Computes.standard {σ : Type} {vm : VMem σ} {Rep : World σ → Flat → Prop} {program : Program}
    {c : Computation program} {t : Trace vm} (computes : t.Computes Rep c) (contained : c.Contained) (nested : c.Nested) :
    t.Standard where
  contained := computes.contained contained
  plain := fun n => by
    rw [(computes.realizes n).kind]
    exact (c.inst n).selected_plain
  encoded := fun n _ => by
    rw [(computes.realizes n).raw]
    exact (c.inst n).encode_standard
  divisions := fun n => (computes.realizes n).divDefined
  loads := by
    intro i n older w write load
    rw [(computes.realizes i).write] at write
    obtain ⟨⟨addr, width, data⟩, stores, rfl⟩ := Option.map_eq_some_iff.mp write
    exact nested i n older addr width data _ _ stores (by rw [← (computes.realizes n).loads, if_pos load])

/-- The seven opcode bits of a standard encoding. -/
theorem opcode7Of_encoded {raw : Raw} (encoded : raw.toNat % 4 = 3) : opcode7Of raw = 4 * opcodeOf raw + 3 := by
  unfold opcodeOf opcode7Of
  simp only [BitVec.extractLsb'_toNat, Nat.shiftRight_eq_div_pow]
  omega

theorem opcodeOf_memory {raw : Raw} :
    ((irSelect raw).2.1.itype = .load → opcodeOf raw = 0x00) ∧ ((irSelect raw).2.1.itype = .store → opcodeOf raw = 0x08) := by
  unfold irSelect
  simp only
  constructor
  · intro kind
    split at kind <;> first | assumption | skip
    all_goals (try split at kind) <;> (try split at kind) <;> (try split at kind) <;> (try split at kind) <;> cases kind
  · intro kind
    split at kind <;> first | assumption | skip
    all_goals (try split at kind) <;> (try split at kind) <;> (try split at kind) <;> (try split at kind) <;> cases kind

/-! ## Instructions in flight -/

/-- A completed instruction has the outcome of `spec`. -/
structure Node.Done (x : Node) (spec : IRInst) : Prop where
  itype : x.ir.itype = spec.itype
  dnpc : x.ir.dnpc = spec.dnpc
  result : (spec.rd.filter (· ≠ 0)).isSome = true → x.ir.result = spec.result
  store : spec.itype = .store →
    x.ir.memAddr = spec.memAddr ∧ x.ir.memWidth = spec.memWidth ∧ x.storeData = spec.src2Val
  load : spec.itype = .load → x.ir.memAddr = spec.memAddr ∧ x.ir.memWidth = spec.memWidth

/-- An instruction in flight is `spec`, and has its outcome once it is completed. -/
structure Node.Good (x : Node) (spec : IRInst) : Prop where
  raw : x.ir.raw = spec.raw
  predicted : x.ir.bpPredictedPc ≠ 0
  sound : x.ir.fault = false
  done : x.ready = true → x.Done spec

namespace Trace

variable {σ : Type} {vm : VMem σ} {t : Trace vm} {f : Flat}

/-- The destination of an entry for instruction `n`. -/
theorem Known.dest {n : Nat} (known : t.Known f n) {o : OOOState} {i : RobIdx} (ok : o.Ok)
    (valid : (o.rob i).valid = true) (raw : (o.rob i).ir.raw = (t.inst n).raw) :
    (o.rob i).dest = (t.inst n).rd.filter (· ≠ 0) := by
  unfold ROBEntry.dest
  rw [(ok.decoded i valid).2, raw, known.rd]

/-- A register that instruction `n` does not write keeps its value. -/
theorem Known.keeps {n : Nat} (known : t.Known f n) {a : Reg} (other : (t.inst n).rd.filter (· ≠ 0) ≠ some a) :
    (t.gpr (n + 1)).get a = (t.gpr n).get a := by
  rw [known.regs, irWriteback]
  cases rd : (t.inst n).rd with
  | none => rfl
  | some r =>
      by_cases zero : a = 0
      · rw [zero, RegFile.get_zero, RegFile.get_zero]
      · apply RegFile.get_set_of_ne
        rintro rfl
        apply other
        rw [rd]
        simp [Option.filter, zero]

theorem Known.writes {n : Nat} (known : t.Known f n) {a : Reg} (dest : (t.inst n).rd.filter (· ≠ 0) = some a) :
    (t.gpr (n + 1)).get a = (t.inst n).result := by
  obtain ⟨rd, nonzero⟩ := Option.filter_eq_some_iff.mp dest
  rw [known.regs, irWriteback, rd]
  exact RegFile.get_set_self _ _ (by simpa using nonzero)

/-- Loads and stores, and no other instructions, go to the LSU. -/
theorem Standard.classify (standard : t.Standard) {n : Nat} (known : t.Known f n) :
    OOOState.classify (t.inst n).raw = .lsu ↔ (t.inst n).itype = .load ∨ (t.inst n).itype = .store := by
  have encoded := standard.encoded n
  have plain := standard.plain n
  have kind := known.kind
  rw [known.decoded.fn] at kind
  rw [kind] at encoded plain ⊢
  constructor
  · intro unit
    have memory : opcode7Of (t.inst n).raw = 0x03 ∨ opcode7Of (t.inst n).raw = 0x23 := by
      unfold OOOState.classify at unit
      split at unit
      · next memory => exact memory
      · split at unit
        · cases unit
        · cases unit
    have isMemory := isMemory_of_opcode memory
    cases fn : (irSelect (t.inst n).raw).2.1 <;> rw [fn] at isMemory plain <;>
      first | exact .inl rfl | exact .inr rfl | (cases isMemory; done) | cases plain
  · intro memory
    have opcode := opcode7Of_encoded (encoded memory)
    have code : opcodeOf (t.inst n).raw = 0x00 ∨ opcodeOf (t.inst n).raw = 0x08 := by
      rcases memory with load | store
      · exact .inl (opcodeOf_memory.1 load)
      · exact .inr (opcodeOf_memory.2 store)
    unfold OOOState.classify
    rw [if_pos]
    omega

/-- The engine's test for a store agrees with the executor. -/
theorem Standard.isStore (standard : t.Standard) {n : Nat} (known : t.Known f n) {entry : ROBEntry}
    (raw : entry.ir.raw = (t.inst n).raw) : entry.isStore = true ↔ (t.inst n).itype = .store := by
  have kind := known.kind
  rw [known.decoded.fn] at kind
  unfold ROBEntry.isStore
  rw [raw, beq_iff_eq]
  constructor
  · intro code
    have unit : OOOState.classify (t.inst n).raw = .lsu := by
      unfold OOOState.classify
      rw [if_pos]
      omega
    rcases (standard.classify known).mp unit with load | store
    · have zero := opcodeOf_memory.1 (kind.symm.trans load)
      have opcode := opcode7Of_encoded (standard.encoded n (.inl load))
      omega
    · exact store
  · intro store
    rw [opcode7Of_encoded (standard.encoded n (.inr store)), opcodeOf_memory.2 (kind.symm.trans store)]

/-- What an execution of instruction `n` with the right operands leaves in flight. -/
theorem Known.done {n : Nat} (known : t.Known f n) {ir : IRInst} (outcome : (t.inst n).SameOutcome ir) {storeData : Word}
    (load : (t.inst n).itype = .load → ir.result = (t.inst n).result)
    (data : (t.inst n).itype = .store → storeData = (t.inst n).src2Val) :
    (⟨ir, true, storeData⟩ : Node).Done (t.inst n) where
  itype := outcome.itype
  dnpc := outcome.dnpc
  result := by
    intro writes
    have kind := known.kind
    rw [known.decoded.fn] at kind
    have noDest : (t.inst n).itype = .store ∨ (t.inst n).itype = .branch → False := by
      rw [kind]
      intro without
      rw [known.rd, rdOf_eq_none without] at writes
      cases writes
    by_cases isLoad : (t.inst n).itype = .load
    · exact load isLoad
    · exact outcome.result isLoad (fun store => noDest (.inl store)) fun branch => noDest (.inr branch)
  store := by
    intro store
    obtain ⟨addr, width, _⟩ := outcome.access (.inr store)
    exact ⟨addr, width, data store⟩
  load := by
    intro load
    obtain ⟨addr, width, _⟩ := outcome.access (.inl load)
    exact ⟨addr, width⟩

/-- The data of a store is its second register. -/
theorem Known.storeData {n : Nat} (known : t.Known f n) (store : (t.inst n).itype = .store) {ir : IRInst}
    (raw : ir.raw = (t.inst n).raw) (reads : ir.ReadsFrom (t.gpr n)) : ir.src2Val = (t.inst n).src2Val := by
  have kind := known.kind
  rw [known.decoded.fn] at kind
  have register : rs2Of (t.inst n).raw = some (regField (t.inst n).raw 20) := by
    unfold rs2Of
    rw [irSelect_store (kind.symm.trans store)]
  rw [known.reads.src2 _ register, reads.src2 _ (by rw [raw]; exact register)]

end Trace

/-! ## Drained stores -/

theorem Flat.drained_cons (f : Flat) (entry : StoreBufEntry) (rest : List StoreBufEntry) :
    f.drained (entry :: rest) = (f.store entry.write.addr entry.write.width entry.write.data).drained rest := rfl

theorem Flat.drained_bytes (f : Flat) (stores : List StoreBufEntry) :
    (f.drained stores).bytes = applyWrites f.bytes (stores.map StoreBufEntry.write) := by
  induction stores generalizing f with
  | nil => rfl
  | cons entry rest ih =>
      rw [f.drained_cons entry rest, ih]
      rfl

theorem Flat.drained_written {f : Flat} {stores : List StoreBufEntry} {byte : Nat}
    (written : byte ∈ (f.drained stores).written) :
    byte ∈ f.written ∨ ∃ entry ∈ stores, entry.write.addr ≤ byte ∧ byte < entry.write.addr + entry.write.width := by
  induction stores generalizing f with
  | nil => exact .inl written
  | cons entry rest ih =>
      rw [f.drained_cons entry rest] at written
      rcases ih written with (older | here) | ⟨other, member, range⟩
      · exact .inl older
      · exact .inr ⟨entry, List.mem_cons_self, here⟩
      · exact .inr ⟨other, List.mem_cons_of_mem _ member, range⟩

/-! ## The relation -/

namespace Engine

variable {σ β : Type} {vm : VMem σ} {cfg : OooConfig β} {e e' : Engine σ β} {Rep : World σ → Flat → Prop} {f : Flat}
  {t : Trace vm}

/-- The engine has retired a prefix of the trace, and works on what follows it. -/
structure Refines (t : Trace vm) (e : Engine σ β) : Prop where
  retired : retirements e.log = (List.range (commits e.log).length).map fun n => (t.inst n).retired
  followed : ∀ entry ∈ commits e.log, entry.ir.Followed ∧ entry.ir.StoresPlainly
  next : nextAfter (t.pc 0) (commits e.log) = t.pc (commits e.log).length
  nodes : Tracks Node.pc t.pc (fun n x => x.Good (t.inst n)) (commits e.log).length e.ooo.path
  regs : ∀ a, a ≠ 0 → e.ooo.committedValue a = (t.gpr (commits e.log).length).get a
  stores : (drains e.log ++ e.ooo.buffered).map StoreBufEntry.write = t.writes (commits e.log).length

/-- The instruction of the trace that slot `i` works for, if the engine is on the path of the trace. -/
def index (e : Engine σ β) (i : RobIdx) : Nat := (commits e.log).length + e.ooo.pos i

/-- Everything older than slot `i` is on the path of the trace. -/
def Reached (t : Trace vm) (e : Engine σ β) (i : RobIdx) : Prop :=
  Matches Node.pc t.pc (commits e.log).length (e.ooo.before i)

section Flight

variable (known : ∀ n, t.Known f n) (ok : e.ooo.Ok) (refines : e.Refines t) {i : RobIdx}
  (valid : (e.ooo.rob i).valid = true) (reached : e.Reached t i)

include ok valid in
/-- The entry at a position before slot `i`. -/
theorem older_entry {n : Nat} (older : n < e.ooo.pos i) : (e.ooo.rob (e.ooo.robHead + Fin.ofNat 32 n)).valid = true ∧
    (e.ooo.before i)[n]? = some (e.ooo.rob (e.ooo.robHead + Fin.ofNat 32 n)).node := by
  have inside := (ok.inv.renamed.valid i).mp valid
  have bounded := ok.inv.renamed.bounded
  constructor
  · rw [ok.inv.renamed.valid, OOOState.pos, age_add _ (by omega)]
    omega
  · unfold OOOState.before
    rw [List.getElem?_map, getElem?_window _ _ _ older]
    rfl

include ok refines valid reached in
theorem Refines.older {n : Nat} (older : n < e.ooo.pos i) :
    (e.ooo.rob (e.ooo.robHead + Fin.ofNat 32 n)).node.Good (t.inst ((commits e.log).length + n)) := by
  have nodes := refines.nodes
  rw [OOOState.path_split ok.inv.renamed valid] at nodes
  exact ((tracks_append ..).mp nodes).1.get reached (older_entry ok valid older).2

variable (sound : e.Sound Rep f (t.pc 0))

include known ok refines valid reached sound in
/-- A register that is ready before slot `i` has the value of the trace. -/
theorem Refines.register {n : Nat} (older : n ≤ e.ooo.pos i) {a : Reg} (nonzero : a ≠ 0)
    (ready : (e.ooo.prf (e.ooo.mapAt n a)).ready = true) :
    (e.ooo.prf (e.ooo.mapAt n a)).value = (t.gpr ((commits e.log).length + n)).get a := by
  induction n with
  | zero =>
      rw [OOOState.mapAt_zero]
      exact refines.regs a nonzero
  | succ n ih =>
      obtain ⟨validJ, _⟩ := older_entry ok valid older
      have good := refines.older ok valid reached older
      have dest := (known _).dest ok validJ good.raw
      rw [OOOState.mapAt_succ] at ready ⊢
      rw [← Nat.add_assoc]
      cases pending : (e.ooo.rob (e.ooo.robHead + Fin.ofNat 32 n)).pending with
      | none =>
          rw [pending, applyRename] at ready
          rw [applyRename, (known _).keeps]
          · exact ih (by omega) ready
          · rw [← dest]
            intro same
            have shape := (ok.inv.renamed.shape _ validJ).1
            rw [pending, same] at shape
            cases shape
      | some r =>
          have target := (OOOState.pending_dest pending).1
          rw [dest] at target
          rw [pending, applyRename] at ready
          rw [applyRename]
          by_cases same : a = r.target
          · subst same
            rw [setAt_self] at ready ⊢
            rw [ok.inv.settled.inFlight _ r validJ pending] at ready
            rw [(known _).writes target, sound.resulted _ r validJ ready pending]
            exact (good.done ready).result (by rw [target]; rfl)
          · rw [setAt_of_ne same] at ready ⊢
            rw [(known _).keeps]
            · exact ih (by omega) ready
            · rw [target]
              exact fun other => same (Option.some.inj other).symm

include known ok refines valid reached sound in
theorem Refines.captured {source : Option Reg} {decoded value : Word} {tag : PReg}
    (captured : e.ooo.Captured (e.ooo.mapAt (e.ooo.pos i)) source decoded true value tag) {r : Reg}
    (register : source = some r) : value = (t.gpr (e.index i)).get r := by
  subst register
  unfold OOOState.Captured at captured
  by_cases zero : r = 0
  · simp only [if_pos zero] at captured
    rw [captured.2, zero, RegFile.get_zero]
  · simp only [if_neg zero] at captured
    obtain ⟨rfl, ready, same⟩ := captured
    rw [same trivial]
    exact refines.register known ok valid reached sound (Nat.le_refl _) zero ready.symm

end Flight

section Units

variable (known : ∀ n, t.Known f n) (ok : e.ooo.Ok) (refines : e.Refines t) (sound : e.Sound Rep f (t.pc 0))
  {eu : EU} {s : Fin 2} (live : e.ooo.Live eu s) (reached : e.Reached t (e.ooo.latch eu s).robIdx)

include known ok refines sound live reached in
/-- The operands in a unit slot are those of the trace. -/
theorem Refines.reads {ir : IRInst} (raw : ir.raw = (e.ooo.slotEntry eu s).ir.raw)
    (src1 : ir.src1Val = (e.ooo.latch eu s).src1Val) (src2 : ir.src2Val = (e.ooo.latch eu s).src2Val) :
    ir.ReadsFrom (t.gpr (e.index (e.ooo.latch eu s).robIdx)) := by
  have valid := (ok.inv.live_entry live).1
  have decoded := (ok.decoded _ valid).1
  have latched := ok.inv.placed.latched _ _ live.valid live.kept
  constructor
  · intro r register
    obtain ⟨tag, captured⟩ := latched.src1
    rw [src1]
    refine refines.captured known ok valid reached sound captured ?_
    rw [decoded.rs1, ← register, raw]
    rfl
  · intro r register
    obtain ⟨tag, captured⟩ := latched.src2
    rw [src2]
    refine refines.captured known ok valid reached sound captured ?_
    rw [decoded.rs2, ← register, raw]
    rfl

variable (standard : t.Standard) (good : (e.ooo.slotEntry eu s).node.Good (t.inst (e.index (e.ooo.latch eu s).robIdx)))
  (here : (e.ooo.slotEntry eu s).ir.pc = t.pc (e.index (e.ooo.latch eu s).robIdx))

include known ok refines sound live reached standard good here in
/-- Executing a record of the entry with the operands of its slot gives the outcome of the trace. -/
theorem Refines.outcome {ir : IRInst} (same : (e.ooo.slotEntry eu s).ir.SameInst ir)
    (src1 : ir.src1Val = (e.ooo.latch eu s).src1Val) (src2 : ir.src2Val = (e.ooo.latch eu s).src2Val) :
    ∃ run, ir.execFn.pure = some run ∧ ir.execFn.itype.Plain = true ∧
      (t.inst (e.index (e.ooo.latch eu s).robIdx)).SameOutcome (run ir) := by
  have knownHere := known (e.index (e.ooo.latch eu s).robIdx)
  have reads := refines.reads known ok sound live reached same.raw src1 src2
  obtain ⟨immediate1, immediate2⟩ := ok.inv.immediates live
  have decoded : ir.Decoded := by
    refine (ok.decoded _ (ok.inv.live_entry live).1).1.sameInst same ?_ ?_
    · intro none
      rw [src1, immediate1 none]
      rfl
    · intro none
      rw [src2, immediate2 none]
      rfl
  have raw : ir.raw = (t.inst (e.index (e.ooo.latch eu s).robIdx)).raw := same.raw.trans good.raw
  obtain ⟨run, executor, outcome⟩ := knownHere.outcome ir decoded (same.pc.trans (here.trans knownHere.pc.symm)) raw reads
  refine ⟨run, executor, ?_, outcome⟩
  have plain := standard.plain (e.index (e.ooo.latch eu s).robIdx)
  rwa [knownHere.kind, knownHere.decoded.fn, ← raw, ← decoded.fn] at plain

include known standard in
/-- The next program counter of the trace is in memory. -/
theorem dnpc_inDram (n : Nat) : inDram (t.inst n).dnpc = true := by
  rw [← (known n).next]
  exact standard.contained.mapped (n + 1)

include known ok refines sound live reached standard good here in
/-- What an INT or MUL unit makes of an instruction. -/
theorem Refines.executed {perf : Perf} {sys sys' : Sys} {ir : IRInst} (unit : eu ≠ .lsu)
    (run : irExecute perf (operands e.ooo (e.ooo.latch eu s)) sys = some (ir, sys')) :
    (⟨ir, true, (e.ooo.slotEntry eu s).storeData⟩ : Node).Good (t.inst (e.index (e.ooo.latch eu s).robIdx)) := by
  obtain ⟨step, executor, plain, outcome⟩ := refines.outcome known ok sound live reached standard good here
    (OOOState.operands_sameInst e.ooo eu s) rfl rfl
  have same := (executed_sameInst ok.inv live run).1
  unfold irExecute at run
  rw [executor] at run
  cases run
  have knownHere := known (e.index (e.ooo.latch eu s).robIdx)
  have notMemory : ¬ ((t.inst (e.index (e.ooo.latch eu s).robIdx)).itype = .load ∨
      (t.inst (e.index (e.ooo.latch eu s).robIdx)).itype = .store) := by
    intro memory
    have lsu := (standard.classify knownHere).mpr memory
    rw [← good.raw] at lsu
    exact unit ((ok.inv.placed.latched _ _ live.valid live.kept).euType.trans lsu)
  refine ⟨same.raw.trans good.raw, ?_, ?_, fun _ => knownHere.done outcome ?_ ?_⟩
  · rw [same.bpPredictedPc]
    exact good.predicted
  · exact (pure_rd executor plain _).2.trans good.sound
  · exact fun load => absurd (.inl load) notMemory
  · exact fun store => absurd (.inr store) notMemory

end Units

section Accesses

variable (known : ∀ n, t.Known f n) (ok : e.ooo.Ok) (refines : e.Refines t) (sound : e.Sound Rep f (t.pc 0))
  {s : Fin 2} (live : e.ooo.Live .lsu s) (reached : e.Reached t (e.ooo.latch .lsu s).robIdx) (standard : t.Standard)
  (good : (e.ooo.slotEntry .lsu s).node.Good (t.inst (e.index (e.ooo.latch .lsu s).robIdx)))
  (here : (e.ooo.slotEntry .lsu s).ir.pc = t.pc (e.index (e.ooo.latch .lsu s).robIdx))

include known ok refines sound live reached standard good here in
/-- An access that has its address has the one of the trace. -/
theorem Refines.addressed (computed : e.ooo.Computed s) :
    (t.inst (e.index (e.ooo.latch .lsu s).robIdx)).SameOutcome (e.ooo.slotEntry .lsu s).ir := by
  obtain ⟨step, executor, _, outcome⟩ := refines.outcome known ok sound live reached standard good here (.refl _)
    computed.src1 computed.src2
  obtain ⟨run, executor', done⟩ := computed.done
  cases executor.symm.trans executor'
  rwa [done] at outcome

include known ok refines sound live reached standard good here in
theorem Refines.storeDone (computed : e.ooo.Computed s) (store : (e.ooo.slotEntry .lsu s).ir.itype = .store) :
    (⟨(e.ooo.slotEntry .lsu s).ir, true, (e.ooo.slotEntry .lsu s).ir.src2Val⟩ : Node).Good
      (t.inst (e.index (e.ooo.latch .lsu s).robIdx)) := by
  have outcome := refines.addressed known ok sound live reached standard good here computed
  have reads := refines.reads known ok sound live reached rfl computed.src1 computed.src2
  refine ⟨good.raw, good.predicted, good.sound, fun _ => (known _).done outcome ?_ ?_⟩
  · intro load
    cases load.symm.trans (outcome.itype.symm.trans store)
  · exact fun isStore => (known _).storeData isStore good.raw reads

include known ok live standard good in
/-- An access that is not a store is a load of memory. -/
theorem Refines.isLoad (outcome : (t.inst (e.index (e.ooo.latch .lsu s).robIdx)).SameOutcome (e.ooo.slotEntry .lsu s).ir)
    (other : (e.ooo.slotEntry .lsu s).ir.itype ≠ .store) :
    (t.inst (e.index (e.ooo.latch .lsu s).robIdx)).itype = .load := by
  have unit : OOOState.classify (t.inst (e.index (e.ooo.latch .lsu s).robIdx)).raw = .lsu := by
    rw [← good.raw]
    exact (ok.inv.placed.latched _ _ live.valid live.kept).euType.symm
  rcases (standard.classify (known _)).mp unit with load | store
  · exact load
  · exact absurd (outcome.itype.trans store) other

end Accesses

/-! ## Memory -/

/-- The stores drained so far are writes of the trace. -/
theorem Refines.drained (refines : e.Refines t) {entry : StoreBufEntry} (member : entry ∈ drains e.log) :
    ∃ i, i < (commits e.log).length ∧ (t.inst i).write = some entry.write := by
  have write : entry.write ∈ t.writes (commits e.log).length := by
    rw [← refines.stores]
    exact List.mem_map_of_mem (List.mem_append_left _ member)
  exact Trace.mem_writes write

section Loads

variable (known : ∀ n, t.Known f n) (ok : e.ooo.Ok) (refines : e.Refines t) (sound : e.Sound Rep f (t.pc 0))
  (standard : t.Standard)

include known ok refines standard in
/-- The writes of the trace up to slot `i` are those committed and those of the older entries. -/
theorem Refines.older_writes {i : RobIdx} (valid : (e.ooo.rob i).valid = true) (reached : e.Reached t i)
    (ready : ∀ j ∈ e.ooo.olderSlots i, (e.ooo.rob j).isStore = true → (e.ooo.rob j).ready = true) {n : Nat}
    (older : n ≤ e.ooo.pos i) : t.writes ((commits e.log).length + n) = t.writes (commits e.log).length ++
      (((window e.ooo.robHead n).map e.ooo.rob).filter ROBEntry.isStore).map ROBEntry.write := by
  induction n with
  | zero => simp
  | succ n ih =>
      have good := refines.older ok valid reached older
      have inside := (ok.inv.renamed.valid i).mp valid
      have bounded := ok.inv.renamed.bounded
      have scanned : e.ooo.robHead + Fin.ofNat 32 n ∈ e.ooo.olderSlots i := by
        apply (mem_window_iff (age_lt e.ooo.robHead i).le).mpr
        rw [age_add _ (by omega)]
        exact older
      rw [← Nat.add_assoc, Trace.writes_succ, ih (by omega), window_succ_last, List.map_append, List.filter_append,
        List.map_append, List.append_assoc]
      congr 2
      have isStore := standard.isStore (known ((commits e.log).length + n)) good.raw
      by_cases store : (t.inst ((commits e.log).length + n)).itype = .store
      · have done := good.done (ready _ scanned (isStore.mpr store))
        obtain ⟨addr, width, data⟩ := done.store store
        rw [List.map_singleton, List.filter_singleton, isStore.mpr store, IRInst.write, if_pos store, ← addr, ← width, ← data]
        rfl
      · rw [List.map_singleton, List.filter_singleton, IRInst.write, if_neg store,
          Bool.eq_false_iff.mpr fun code => store (isStore.mp code)]
        rfl

include known ok refines sound standard in
/-- A load on the path of the trace gets the value of the trace. -/
theorem Refines.filled (law : CoherentMemory vm Rep) {s : Fin 2} {raw : Word} {world : World σ}
    (addressed : e.ooo.Addressed s) (reached : e.Reached t (e.ooo.latch .lsu s).robIdx)
    (good : (e.ooo.slotEntry .lsu s).node.Good (t.inst (e.index (e.ooo.latch .lsu s).robIdx)))
    (here : (e.ooo.slotEntry .lsu s).ir.pc = t.pc (e.index (e.ooo.latch .lsu s).robIdx))
    (read : vm.fillAndRead e.world (e.ooo.slotEntry .lsu s).ir.memAddr (e.ooo.slotEntry .lsu s).ir.memWidth =
      some (raw, world)) :
    (⟨{ (e.ooo.slotEntry .lsu s).ir with result := e.ooo.loadValue s raw }, true,
      (e.ooo.slotEntry .lsu s).storeData⟩ : Node).Good (t.inst (e.index (e.ooo.latch .lsu s).robIdx)) := by
  have outcome := refines.addressed known ok sound addressed.live reached standard good here addressed.computed
  have load := Refines.isLoad known ok addressed.live standard good outcome addressed.load
  obtain ⟨cached, within⟩ := standard.contained.accesses _ (.inl load)
  obtain ⟨addr, width, sign⟩ := outcome.access (.inl load)
  have kind : (e.ooo.slotEntry .lsu s).ir.itype = .load := outcome.itype.trans load
  have valid := (ok.inv.live_entry addressed.live).1
  have older := ok.older_entries sound.loads.cleared addressed.live (ok.addressed_load addressed kind).1
  obtain ⟨rep, _⟩ := sound.loads.memory fun entry member => (refines.followed entry member).2
  -- the writes before the load are the drained ones and the pending ones
  have writes : t.writes (e.index (e.ooo.latch .lsu s).robIdx) =
      (drains e.log).map StoreBufEntry.write ++ e.ooo.pendingWrites (e.ooo.latch .lsu s).robIdx := by
    unfold index OOOState.pendingWrites OOOState.olderStores
    rw [refines.older_writes known ok standard valid reached (fun j member => (older j member).2.2) (Nat.le_refl _),
      ← refines.stores, List.map_append, List.append_assoc]
    rfl
  have exactly : e.ooo.ForwardsExactly (e.ooo.latch .lsu s).robIdx := by
    have inLine : InLine (e.ooo.rob (e.ooo.latch .lsu s).robIdx).ir.memAddr
        (e.ooo.rob (e.ooo.latch .lsu s).robIdx).ir.memWidth := by
      rw [← addr, ← width] at within
      exact within
    refine forwardsExactly_of_all (decide_eq_true inLine) ?_
    intro w member
    have write : w ∈ t.writes (e.index (e.ooo.latch .lsu s).robIdx) := by
      rw [writes]
      exact List.mem_append_right _ member
    obtain ⟨i, before, same⟩ := Trace.mem_writes write
    have apart := standard.loads i _ before w same load
    rw [← addr, ← width] at apart
    exact apart
  have memory : applyWrites (f.drained (drains e.log)).bytes (e.ooo.pendingWrites (e.ooo.latch .lsu s).robIdx) =
      (t.memory f (e.index (e.ooo.latch .lsu s).robIdx)).bytes := by
    rw [Trace.memory_bytes, writes, applyWrites_append,
      f.drained_bytes]
  have value : e.ooo.loadValue s raw = (t.inst (e.index (e.ooo.latch .lsu s).robIdx)).result := by
    rw [ok.loadValue_eq sound.loads.kept.buffered sound.loads.cleared addressed kind (addr ▸ cached) ?_ exactly]
    · unfold OOOState.programOrderValue
      rw [memory, (known _).load load, ← addr, ← width, ← sign load]
      rfl
    · obtain ⟨_, _, found, _, _, same⟩ := law.fillAndRead (e.ooo.slotEntry .lsu s).ir.memWidth rep (addr ▸ cached)
      cases found.symm.trans read
      exact same
  refine ⟨good.raw, good.predicted, good.sound, fun _ => (known _).done ?_ (fun _ => value) ?_⟩
  · exact ⟨outcome.itype, outcome.dnpc, outcome.access, fun other => absurd load other⟩
  · exact fun store => nomatch load.symm.trans store

end Loads

/-! ## Steps -/

section Steps

variable (known : ∀ n, t.Known f n) (ok : e.ooo.Ok) (refines : e.Refines t) (sound : e.Sound Rep f (t.pc 0))
  (standard : t.Standard)

include refines sound standard known in
/-- The word fetched on the path of the trace. -/
theorem Refines.fetched_word (law : CoherentMemory vm Rep) (fresh : ∀ n byte, InCode (t.pc n) byte → byte ∉ f.written)
    {n : Nat} {pc : Word}
    (beyond : (commits e.log).length ≤ n) (here : pc = t.pc n) {word : Word} {world : World σ}
    (read : vm.ifetch e.world pc 4 = some (word, world)) : word.setWidth 32 = (t.inst n).raw := by
  obtain ⟨rep, _⟩ := sound.loads.memory fun entry member => (refines.followed entry member).2
  have apart : ∀ entry ∈ drains e.log, Apart entry.write.addr entry.write.width (t.pc n).toNat 4 := by
    intro entry member
    obtain ⟨i, before, same⟩ := refines.drained member
    exact standard.contained.code i n (by omega) _ same
  obtain ⟨value, w, found, _, _, same⟩ := law.ifetch 4 rep (here ▸ standard.contained.mapped n)
  cases found.symm.trans read
  rw [(known n).raw, same]
  · rw [here, f.drained_bytes, loadLE_applyWrites]
    intro w member
    obtain ⟨entry, drained, rfl⟩ := List.mem_map.mp member
    exact apart entry drained
  · rw [here]
    exact .of_aligned (standard.contained.aligned n)
  · intro byte low high written
    rw [here] at low high
    rcases Flat.drained_written written with initial | ⟨entry, member, range⟩
    · exact fresh n byte ⟨low, high⟩ initial
    · have separate := apart entry member
      unfold Apart at separate
      omega

/-- A step that retires nothing. -/
theorem Refines.keep (refines : e.Refines t) (regs : ∀ a, a ≠ 0 → e'.ooo.committedValue a = e.ooo.committedValue a)
    (committed : commits e'.log = commits e.log) (retired : retirements e'.log = retirements e.log)
    (stores : drains e'.log ++ e'.ooo.buffered = drains e.log ++ e.ooo.buffered)
    (nodes : Tracks Node.pc t.pc (fun n x => x.Good (t.inst n)) (commits e.log).length e'.ooo.path) : e'.Refines t where
  retired := by
    rw [retired, committed]
    exact refines.retired
  followed := by
    rw [committed]
    exact refines.followed
  next := by
    rw [committed]
    exact refines.next
  nodes := by
    rw [committed]
    exact nodes
  regs := by
    intro a nonzero
    rw [regs a nonzero, committed]
    exact refines.regs a nonzero
  stores := by
    rw [stores, committed]
    exact refines.stores

include ok refines in
/-- An entry changes in place, or the path is cut behind it. -/
theorem Refines.update {i : RobIdx} {y : Node} (valid : (e.ooo.rob i).valid = true)
    (same : y.pc = (e.ooo.rob i).node.pc)
    (good : e.Reached t i → (e.ooo.rob i).node.Good (t.inst (e.index i)) → (e.ooo.rob i).ir.pc = t.pc (e.index i) →
      y.Good (t.inst (e.index i))) :
    Tracks Node.pc t.pc (fun n x => x.Good (t.inst n)) (commits e.log).length (e.ooo.before i ++ y :: e.ooo.behind i) ∧
    Tracks Node.pc t.pc (fun n x => x.Good (t.inst n)) (commits e.log).length (e.ooo.before i ++ [y]) := by
  have nodes := refines.nodes
  rw [OOOState.path_split ok.inv.renamed valid] at nodes
  have length : (e.ooo.before i).length = e.ooo.pos i := by
    unfold OOOState.before
    rw [List.length_map, length_window]
  refine nodes.replace same ?_
  rw [length]
  exact fun _ reached here found => good reached found here

include ok refines sound in
/-- The head entry is the next instruction of the trace. -/
theorem Refines.head (live : e.ooo.robCount ≠ 0) :
    (e.ooo.rob e.ooo.robHead).ir.pc = t.pc (commits e.log).length ∧
      (e.ooo.rob e.ooo.robHead).node.Good (t.inst (commits e.log).length) ∧
      Tracks Node.pc t.pc (fun n x => x.Good (t.inst n)) ((commits e.log).length + 1) e.ooo.afterCommit.path := by
  have nodes := refines.nodes
  obtain ⟨_, leads⟩ := sound.continues.committed fun entry member => (refines.followed entry member).1
  rw [e.ooo.afterCommit_frame.path ok.inv.renamed live] at nodes leads
  rw [refines.next] at leads
  exact ⟨leads, nodes leads⟩

include known ok refines sound standard in
theorem Refines.committed_head (live : e.ooo.robCount ≠ 0) (ready : (e.ooo.rob e.ooo.robHead).ready = true) :
    ((e.ooo.rob e.ooo.robHead).ir.Followed ∧ (e.ooo.rob e.ooo.robHead).ir.StoresPlainly) ∧
    (e.ooo.rob e.ooo.robHead).ir.dnpc = t.pc ((commits e.log).length + 1) ∧
    (e.ooo.rob e.ooo.robHead).retired (commitValue e.ooo (e.ooo.rob e.ooo.robHead)) =
      (t.inst (commits e.log).length).retired := by
  have knownHere := known (commits e.log).length
  obtain ⟨here, good, _⟩ := refines.head ok sound live
  have done := good.done ready
  have valid := ok.inv.renamed.head_valid live
  have dest := knownHere.dest ok valid good.raw
  have itype : (e.ooo.rob e.ooo.robHead).ir.itype = (t.inst (commits e.log).length).itype := done.itype
  have dnpc : (e.ooo.rob e.ooo.robHead).ir.dnpc = (t.inst (commits e.log).length).dnpc := done.dnpc
  refine ⟨⟨⟨?_, good.predicted, ?_⟩, ?_⟩, ?_, ?_⟩
  · rw [dnpc]
    exact dnpc_inDram known standard _
  · intro system
    have plain := standard.plain (commits e.log).length
    rw [← itype, system] at plain
    cases plain
  · constructor
    · intro store _
      obtain ⟨addr, width, _⟩ := done.store (itype.symm.trans store)
      rw [show (e.ooo.rob e.ooo.robHead).ir.memAddr = _ from addr, show (e.ooo.rob e.ooo.robHead).ir.memWidth = _ from width]
      exact (standard.contained.accesses _ (.inr (itype.symm.trans store))).2
    · intro store outside
      obtain ⟨addr, _, _⟩ := done.store (itype.symm.trans store)
      rw [show (e.ooo.rob e.ooo.robHead).ir.memAddr = _ from addr,
        (standard.contained.accesses _ (.inr (itype.symm.trans store))).1] at outside
      cases outside
  · rw [dnpc, knownHere.next]
  · unfold ROBEntry.retired IRInst.retired
    rw [Retired.mk.injEq]
    refine ⟨here.trans knownHere.pc.symm, ?_, ?_⟩
    · rw [dest]
      cases writes : (t.inst (commits e.log).length).rd.filter (· ≠ 0) with
      | none => rfl
      | some rd =>
          rw [writes] at dest
          obtain ⟨r, pending, physRd⟩ := ok.inv.renamed.pending_of_dest valid (by rw [dest]; rfl)
          rw [Option.map_some, Option.map_some, commitValue, physRd]
          simp only
          rw [sound.resulted _ r valid ready pending]
          rw [show (e.ooo.rob e.ooo.robHead).ir.result = _ from done.result (by rw [writes]; rfl)]
    · rw [itype]
      split
      · next store =>
          obtain ⟨addr, width, data⟩ := done.store store
          rw [show (e.ooo.rob e.ooo.robHead).ir.memAddr = _ from addr,
            show (e.ooo.rob e.ooo.robHead).ir.memWidth = _ from width,
            show (e.ooo.rob e.ooo.robHead).storeData = _ from data]
      · rfl

include known ok refines sound standard in
theorem Refines.commit (live : e.ooo.robCount ≠ 0) (ready : (e.ooo.rob e.ooo.robHead).ready = true)
    (room : (e.ooo.rob e.ooo.robHead).ir.itype = .store → inDram (e.ooo.rob e.ooo.robHead).ir.memAddr = true →
      e.ooo.sbufCount < storeBufSize) (step : Commits vm e e') : e'.Refines t := by
  have knownHere := known (commits e.log).length
  obtain ⟨_, good, nodes⟩ := refines.head ok sound live
  obtain ⟨followed, next, retired⟩ := refines.committed_head known ok sound standard live ready
  have done := good.done ready
  have valid := ok.inv.renamed.head_valid live
  have dest := knownHere.dest ok valid good.raw
  have itype : (e.ooo.rob e.ooo.robHead).ir.itype = (t.inst (commits e.log).length).itype := done.itype
  obtain ⟨extra, log, quiet⟩ := step.log
  have mismatches : ∀ event ∈ extra, ∀ entry value, event ≠ .commit entry value := by
    rintro event member entry value rfl
    obtain ⟨_, mismatch⟩ := quiet _ member
    cases mismatch
  have committed : commits e'.log = commits e.log ++ [e.ooo.rob e.ooo.robHead] := by
    rw [log, List.append_cons, commits_quiet _ mismatches, commits_append]
    rfl
  have drained : drains e'.log = drains e.log := by
    rw [log, drains_quiet]
    rintro event member entry rfl
    rcases List.mem_cons.mp member with commit | other
    · cases commit
    · obtain ⟨_, mismatch⟩ := quiet _ other
      cases mismatch
  have length : (commits e'.log).length = (commits e.log).length + 1 := by
    rw [committed, List.length_append]
    rfl
  refine ⟨?_, ?_, ?_, ?_, ?_, ?_⟩
  · rw [length, List.range_succ, List.map_append, ← refines.retired, List.map_singleton, ← retired, log, List.append_cons,
      retirements_quiet _ mismatches, retirements_append]
    rfl
  · intro entry member
    rw [committed] at member
    rcases List.mem_append.mp member with old | new
    · exact refines.followed entry old
    · rw [List.mem_singleton.mp new]
      exact followed
  · rw [length, committed, nextAfter_concat, next]
  · rw [length, step.ooo]
    exact nodes
  · intro a nonzero
    rw [length, step.ooo, OOOState.afterCommit_committedValue]
    cases pending : (e.ooo.rob e.ooo.robHead).pending with
    | none =>
        have absent : (e.ooo.rob e.ooo.robHead).dest = none := by
          have shape := (ok.inv.renamed.shape _ valid).1
          rw [pending] at shape
          exact Option.isNone_iff_eq_none.mp (Option.isSome_eq_false_iff.mp shape.symm)
        rw [knownHere.keeps (by rw [← dest, absent]; exact nofun)]
        exact refines.regs a nonzero
    | some r =>
        have target := (OOOState.pending_dest pending).1
        rw [dest] at target
        simp only
        split
        · next same =>
            subst same
            rw [knownHere.writes target, sound.resulted _ r valid ready pending]
            exact done.result (by rw [target]; rfl)
        · next other =>
            rw [knownHere.keeps (by rw [target]; exact fun same => other (Option.some.inj same).symm)]
            exact refines.regs a nonzero
  · rw [length, Trace.writes_succ, ← refines.stores, drained, step.ooo, OOOState.buffered_afterCommit, IRInst.write]
    by_cases store : (t.inst (commits e.log).length).itype = .store
    · obtain ⟨addr, width, data⟩ := done.store store
      have cached : inDram (e.ooo.rob e.ooo.robHead).ir.memAddr = true := by
        rw [show (e.ooo.rob e.ooo.robHead).ir.memAddr = _ from addr]
        exact (standard.contained.accesses _ (.inr store)).1
      have isStore := itype.trans store
      rw [if_pos store, if_pos ⟨isStore, cached⟩,
        OOOState.buffered_pushStore sound.loads.kept.buffered (room isStore cached), ← List.append_assoc, List.map_append,
        ← addr, ← width, ← data]
      rfl
    · rw [if_neg store, if_neg fun both => store (itype.symm.trans both.1)]
      simp

include ok refines in
theorem Refines.inPlace {i : RobIdx} {y : Node} (valid : (e.ooo.rob i).valid = true)
    (regs : ∀ a, a ≠ 0 → e'.ooo.committedValue a = e.ooo.committedValue a) (log : e'.log = e.log) (stores : e'.ooo.buffered = e.ooo.buffered)
    (path : e'.ooo.path = e.ooo.before i ++ y :: e.ooo.behind i) (same : y.pc = (e.ooo.rob i).node.pc)
    (good : e.Reached t i → (e.ooo.rob i).node.Good (t.inst (e.index i)) → (e.ooo.rob i).ir.pc = t.pc (e.index i) →
      y.Good (t.inst (e.index i))) : e'.Refines t := by
  refine refines.keep regs (by rw [log]) (by rw [log]) (by rw [log, stores]) ?_
  rw [path]
  exact (refines.update ok valid same good).1

include ok refines in
/-- An instruction completes. -/
theorem Refines.completes {eu : EU} {s : Fin 2} {entry : ROBEntry} {result : Word} (live : e.ooo.Live eu s)
    (completes : e.ooo.Completes eu s entry result e'.ooo)
    (committed : commits e'.log = commits e.log) (retired : retirements e'.log = retirements e.log)
    (drained : drains e'.log = drains e.log) (same : entry.ir.pc = (e.ooo.slotEntry eu s).ir.pc)
    (good : e.Reached t (e.ooo.latch eu s).robIdx →
      (e.ooo.slotEntry eu s).node.Good (t.inst (e.index (e.ooo.latch eu s).robIdx)) →
      (e.ooo.slotEntry eu s).ir.pc = t.pc (e.index (e.ooo.latch eu s).robIdx) →
        entry.node.Good (t.inst (e.index (e.ooo.latch eu s).robIdx))) : e'.Refines t := by
  obtain ⟨sbuf, head, _, count⟩ := completes.stores
  refine refines.keep (fun _ nonzero => completes.committedValue ok.inv live nonzero) committed retired ?_ ?_
  · rw [drained, OOOState.buffered_congr sbuf head count]
  · rw [completes.path ok.inv live]
    exact (refines.update ok (ok.inv.live_entry live).1 (y := entry.node) same good).1

include known ok refines sound standard in
theorem BackStep.simulates (law : CoherentMemory vm Rep) (step : e.BackStep vm cfg e') : e'.Refines t := by
  have inv := ok.inv
  have stays : ∀ {o : OOOState}, o.path = e.ooo.path →
      Tracks Node.pc t.pc (fun n x => x.Good (t.inst n)) (commits e.log).length o.path := by
    intro o path
    rw [path]
    exact refines.nodes
  cases step with
  | note quiet =>
      rename_i lines
      have silent : ∀ event ∈ lines, (∀ entry value, event ≠ .commit entry value) ∧ ∀ entry, event ≠ .drain entry := by
        intro event member
        obtain ⟨_, _, line⟩ := quiet _ member
        constructor
        · rintro entry value rfl
          cases line
        · rintro entry rfl
          cases line
      refine refines.keep (fun _ _ => rfl) (commits_quiet _ fun event member => (silent event member).1)
        (retirements_quiet _ fun event member => (silent event member).1) ?_ refines.nodes
      rw [drains_quiet _ fun event member => (silent event member).2]
  | timer mshr tick lines => exact refines.keep (fun _ _ => rfl) rfl rfl rfl (stays rfl)
  | drain waiting written =>
      refine refines.keep (fun _ _ => rfl) (commits_quiet _ (by simp)) (retirements_quiet _ (by simp)) ?_ (stays rfl)
      rw [OOOState.buffered_popStore sound.loads.kept.buffered waiting, emit, drains_append, List.append_assoc]
      rfl
  | commit live ready ordered clean room stored checked =>
      exact refines.commit known ok sound standard live ready room (commits_of_checked stored checked)
  | exec bpred fault unit live run completes faulted resolved =>
      have same := (executed_sameInst inv live run).1
      refine refines.completes ok live completes rfl rfl rfl same.pc ?_
      intro reached good here
      have executed := refines.executed known ok sound live reached standard good here unit run
      have noFault : fault = false := by
        apply Bool.eq_false_iff.mpr
        intro faults
        have outside := faulted faults
        rw [show _ = _ from (executed.done rfl).dnpc, dnpc_inDram known standard] at outside
        cases outside
      refine ⟨executed.raw, executed.predicted, ?_, ?_⟩
      · change (_ || fault) = false
        rw [noFault, Bool.or_false]
        exact executed.sound
      · intro ready
        obtain ⟨itype, dnpc, result, store, load⟩ := executed.done ready
        exact ⟨itype, dnpc, result, store, load⟩
  | redirect live run completes control wrong target =>
      rename_i s ir sys o bpred stats
      have same := (executed_sameInst inv live run).1
      obtain ⟨sbuf, head, _, count⟩ := completes.stores
      obtain ⟨sbuf', head', _, count'⟩ := (redirect_flushes ok live run completes).2.stores
      have regs : ∀ a, a ≠ 0 → (o.flushAfter (e.ooo.latch .int s).robIdx).committedValue a = e.ooo.committedValue a :=
        fun a nonzero => ((redirect_flushes ok live run completes).2.committedValue a).trans
          (completes.committedValue inv live nonzero)
      refine refines.keep regs rfl rfl ?_ ?_
      · rw [← OOOState.buffered_congr (sbuf'.trans sbuf) (head'.trans head) (count'.trans count)]
        rfl
      · rw [redirect_path ok live run completes]
        refine (refines.update ok (inv.live_entry live).1
          (y := ⟨ir, true, (e.ooo.slotEntry .int s).storeData⟩) same.pc ?_).2
        intro reached good here
        exact refines.executed known ok sound live reached standard good here (fun same => by cases same) run
  | count live => exact refines.keep (fun _ _ => rfl) rfl rfl rfl (stays rfl)
  | discard mshr valid flushed lines filled => exact refines.keep (fun _ _ => rfl) rfl rfl rfl (stays rfl)
  | address live first executor =>
      rename_i s run
      have same := (OOOState.operands_sameInst e.ooo .lsu s).trans
        (pure_sameInst (operands e.ooo (e.ooo.latch .lsu s)) executor).1
      obtain ⟨valid, waits⟩ := inv.live_entry live
      refine refines.inPlace ok valid (fun _ _ => rfl) rfl rfl (OOOState.path_update inv.renamed valid rfl rfl rfl rfl rfl) same.pc ?_
      intro reached good here
      obtain ⟨_, _, plain, _⟩ := refines.outcome known ok sound live reached standard good here
        (OOOState.operands_sameInst e.ooo .lsu s) rfl rfl
      refine ⟨same.raw.trans good.raw, ?_, ?_, fun ready => absurd (waits.symm.trans ready) Bool.false_ne_true⟩
      · exact fun zero => good.predicted (same.bpPredictedPc.symm.trans zero)
      · exact (pure_rd executor plain _).2.trans good.sound
  | storeDone live computed store completes =>
      refine refines.completes ok live completes rfl rfl rfl rfl ?_
      exact fun reached good here => refines.storeDone known ok sound live reached standard good here computed store
  | delay addressed absent => exact refines.keep (fun _ _ => rfl) rfl rfl rfl (stays rfl)
  | probe => exact refines.keep (fun _ _ => rfl) rfl rfl rfl (stays rfl)
  | miss addressed cached missed line lines => exact refines.keep (fun _ _ => rfl) rfl rfl rfl (stays rfl)
  | loadFault addressed outside completes =>
      refine refines.completes ok addressed.live completes rfl rfl rfl rfl ?_
      intro reached good here
      have outcome := refines.addressed known ok sound addressed.live reached standard good here addressed.computed
      have load := Refines.isLoad known ok addressed.live standard good outcome addressed.load
      have cached := (standard.contained.accesses _ (.inl load)).1
      rw [← (outcome.access (.inl load)).1] at cached
      obtain ⟨outside, _⟩ := outside
      change inDram (truncPc _) = false at outside
      rw [truncPc_of_inDram cached, cached] at outside
      cases outside
  | fill addressed device mapped read completes =>
      refine refines.completes ok addressed.live completes (commits_quiet _ (by simp)) (retirements_quiet _ (by simp))
        (drains_quiet _ (by simp)) rfl ?_
      exact fun reached good here => refines.filled known ok sound standard law addressed reached good here read
  | issue empty chosen => exact refines.keep (fun _ _ => rfl) rfl rfl rfl (stays rfl)

include known ok refines sound standard in
theorem FrontStep.simulates (law : CoherentMemory vm Rep) (fresh : ∀ n byte, InCode (t.pc n) byte → byte ∉ f.written)
    (targets : ∀ state pc raw, (cfg.bpred.predict state pc raw).1.taken = true →
      (cfg.bpred.predict state pc raw).1.btbHit = true → (cfg.bpred.predict state pc raw).1.target ≠ 0)
    (step : e.FrontStep vm cfg e') : e'.Refines t := by
  have stays : ∀ {o : OOOState}, o.path = e.ooo.path →
      Tracks Node.pc t.pc (fun n x => x.Good (t.inst n)) (commits e.log).length o.path := by
    intro o path
    rw [path]
    exact refines.nodes
  cases step with
  | note => exact refines.keep (fun _ _ => rfl) rfl rfl rfl refines.nodes
  | rename valid inOrder alone room names renames =>
      obtain ⟨sbuf, head, _, count⟩ := renames.sbuf
      refine refines.keep (fun _ nonzero => renames.committedValue ok.inv names nonzero) (commits_quiet _ ?_)
        (retirements_quiet _ ?_) ?_ (stays (renames.path ok.inv.renamed room valid inOrder))
      · split <;> simp
      · split <;> simp
      · rw [drains_quiet]
        · rw [← OOOState.buffered_congr sbuf head count]
          rfl
        · split <;> simp
  | compact consumed left => exact refines.keep (fun _ _ => rfl) rfl rfl rfl (stays (OOOState.path_compact consumed left))
  | decode group consumed => exact refines.keep (fun _ _ => rfl) rfl rfl rfl (stays (OOOState.path_decode consumed))
  | fetch inOrder mapped read answer =>
      rename_i s word _ _ taken next rasTop rasCnt
      obtain ⟨fetched, atPc, raw⟩ := irDecode_fetched e.cpu.gpr (word.setWidth 32) (truncPc e.ooo.fetchPc)
        (e.ooo.latchIfId s).ir
      refine refines.keep (fun _ _ => rfl) rfl rfl rfl ?_
      rw [setFetched, OOOState.path_fetch inOrder, tracks_append]
      refine ⟨refines.nodes, fun _ here => ⟨⟨?_, ?_, fetched.fault, fun ready => absurd ready Bool.false_ne_true⟩, trivial⟩⟩
      · exact raw.trans (refines.fetched_word known sound standard law fresh (Nat.le_add_right _ _)
          (atPc.symm.trans here) read)
      · change next ≠ 0
        rcases answer with straight | ⟨state, _, isTaken, hit, target⟩
        · obtain ⟨low, high⟩ := inDram_iff.mp mapped
          rw [straight]
          intro zero
          have value := congrArg BitVec.toNat zero
          rw [BitVec.toNat_add, Nat.mod_eq_of_lt (by change _ + 4 < _; omega)] at value
          cases value
        · rw [target]
          exact targets _ _ _ isTaken hit
  | skip unmapped => exact refines.keep (fun _ _ => rfl) rfl rfl rfl (stays rfl)
  | tick => exact refines.keep (fun _ _ => rfl) rfl rfl rfl (stays rfl)

end Steps

variable (cfg) in
theorem init_refines {cpu : CPUState} (start : (t.state 0).cpu = cpu) (world : World σ) (bpred : β) :
    (Engine.init cfg cpu world bpred).Refines t where
  retired := rfl
  followed := fun _ absurdity => nomatch absurdity
  next := rfl
  nodes := trivial
  regs := by
    intro a _
    unfold Trace.gpr
    rw [show (commits (Engine.init cfg cpu world bpred).log).length = 0 from rfl, start]
    simp [Engine.init, OOOState.committedValue, oooInit, a.isLt]
  stores := rfl

/-- Every run from a state of the trace refines it, whether differential testing is on or off. -/
theorem run_refines (law : CoherentMemory vm Rep) (known : ∀ n, t.Known f n) (standard : t.Standard)
    (fresh : ∀ n byte, InCode (t.pc n) byte → byte ∉ f.written)
    (targets : ∀ state pc raw, (cfg.bpred.predict state pc raw).1.taken = true →
      (cfg.bpred.predict state pc raw).1.btbHit = true → (cfg.bpred.predict state pc raw).1.target ≠ 0)
    {cpu : CPUState} (start : (t.state 0).cpu = cpu) {world : World σ} (rep : Rep world f) (bpred : β)
    {P : Engine σ β → Prop}
    (back : ∀ e e', e.ooo.Ok → e.Sound Rep f (t.pc 0) → e.Refines t → e'.Refines t → P e → e.BackStep vm cfg e' → P e')
    (front : ∀ e e', e.ooo.Ok → P e → e.FrontStep vm cfg e' → P e') (initial : P (Engine.init cfg cpu world bpred))
    {k : Nat} (done : run vm cfg k (Engine.init cfg cpu world bpred) = some e) :
    e.ooo.Ok ∧ e.Sound Rep f (t.pc 0) ∧ e.Refines t ∧ P e := by
  have atPc : t.pc 0 = cpu.pc := congrArg CPUState.pc start
  have mapped : inDram cpu.pc = true := by
    rw [← atPc]
    exact standard.contained.mapped 0
  have init : (Engine.init cfg cpu world bpred).Sound Rep f (t.pc 0) := by
    rw [atPc]
    exact init_sound cfg mapped rep bpred
  have reached := run_keeps (P := fun e => e.Sound Rep f (t.pc 0) ∧ e.Refines t ∧ P e)
    (fun e e' ok holds step => by
      have after := step.simulates known ok holds.2.1 holds.1 standard law
      exact ⟨step.sound law ok holds.1, after, back e e' ok holds.1 holds.2.1 after holds.2.2 step⟩)
    (fun e e' ok holds step => ⟨step.sound law (atPc ▸ mapped) ok holds.1,
      step.simulates known ok holds.2.1 holds.1 standard law fresh targets, front e e' ok holds.2.2 step⟩)
    (oooInit_ok cpu) (oooInit_tidy cpu) ⟨init, init_refines cfg start world bpred, initial⟩ done
  exact ⟨reached.1, reached.2.2⟩

/-- A trace from reset knows its instructions. -/
theorem trace_known {δ : Type} {devices : Devices δ} {cpu : CPUState} {sys : Sys} (hart : sys.hartid = 0) {pmem : ByteMem}
    {dev : δ} {t : Trace (hierarchy ⟨1, prefetchHint, devices⟩)}
    (start : t.state 0 = ⟨cpu, ⟨sys, MemState.init pmem dev⟩⟩) (standard : t.Standard) (n : Nat) :
    t.Known ⟨pmem, ∅⟩ n := by
  refine standard.contained.known (hierarchy_coherent rfl) rfl ?_ (standard.plain n)
  rw [start]
  exact ⟨init_represents _ pmem dev, fun _ => hart⟩

/-- In every single-core run with differential testing off, whatever nonzero targets the predictor gives, the
instructions retired are a prefix of those the functional engine retires. -/
theorem retires_functional {δ : Type} (devices : Devices δ) (cfg : OooConfig β) (_off : cfg.difftestEn = false)
    (targets : ∀ state pc raw, (cfg.bpred.predict state pc raw).1.taken = true →
      (cfg.bpred.predict state pc raw).1.btbHit = true → (cfg.bpred.predict state pc raw).1.target ≠ 0)
    (cpu : CPUState) (sys : Sys) (hart : sys.hartid = 0) (pmem : ByteMem) (dev : δ) (bpred : β)
    (t : Trace (hierarchy ⟨1, prefetchHint, devices⟩)) (start : t.state 0 = ⟨cpu, ⟨sys, MemState.init pmem dev⟩⟩)
    (standard : t.Standard) (k : Nat) (e : Engine (MemState δ) β)
    (done : run (hierarchy ⟨1, prefetchHint, devices⟩) cfg k
      (Engine.init cfg cpu ⟨sys, MemState.init pmem dev⟩ bpred) = some e) :
    ∃ n, retirements e.log = (List.range n).map fun i => (t.inst i).retired := by
  have law : CoherentMemory (hierarchy ⟨1, prefetchHint, devices⟩)
      fun w f => Represents ⟨1, prefetchHint, devices⟩ f w := hierarchy_coherent rfl
  have rep : Represents ⟨1, prefetchHint, devices⟩ ⟨pmem, ∅⟩ ⟨sys, MemState.init pmem dev⟩ :=
    ⟨init_represents _ pmem dev, fun _ => hart⟩
  obtain ⟨_, _, refines, _⟩ := run_refines law (trace_known hart start standard) standard (fun _ _ _ => Set.notMem_empty _)
    targets (congrArg Machine.cpu start) rep bpred (P := fun _ => True) (fun _ _ _ _ _ _ _ _ => trivial)
    (fun _ _ _ _ _ => trivial) trivial done
  exact ⟨_, refines.retired⟩

end Engine

/-- Cycles of one core inside the counting loop. -/
def countingRun (k : Nat) : Option (Engine (MemState Unit) Unit) :=
  Engine.run (hierarchy (.plain 1)) .solo k (Engine.init .solo ⟨RegFile.empty.set 2 (countingWord 0), mbase + 4⟩
    ⟨Sys.init, MemState.init (image (counting.map Instr.encode)) ()⟩ ())

theorem countingRun_forty : (countingRun 40).any (fun e =>
    decide ((retirements e.log).length = 28) && decide ((drains e.log).length = 7)) = true := by
  decide +kernel

/-- Forty cycles: seven times the loop loads its word, adds one and stores it. -/
theorem Engine.retires_functional_counting : ∃ (t : Trace (hierarchy (.plain 1))) (e : Engine (MemState Unit) Unit),
    t.Standard ∧ countingRun 40 = some e ∧ (retirements e.log).length = 28 ∧ (drains e.log).length = 7 ∧
      ∃ n, retirements e.log = (List.range n).map fun i => (t.inst i).retired := by
  obtain ⟨e, done, holds⟩ := (Option.any_eq_true _ _).mp countingRun_forty
  obtain ⟨retired, drained⟩ := Bool.and_eq_true_iff.mp holds
  obtain ⟨c, t, start, computes, counts⟩ := counting_trace 1 (countingWord_behind 0) Sys.init fun _ => rfl
  have standard := computes.standard (fun n => (counts n).contained) (CountsBy.nested counts)
  refine ⟨t, e, standard, done, of_decide_eq_true retired, of_decide_eq_true drained, ?_⟩
  exact Engine.retires_functional Devices.none .solo rfl (fun _ _ _ taken => nomatch taken)
    ⟨RegFile.empty.set 2 (countingWord 0), mbase + 4⟩ Sys.init rfl (image (counting.map Instr.encode)) () () t start standard
    40 e done

/-- `auipc x5, 0`, the word `0x0002a380`, which is executed as `lw x7, 0(x5)`, and a jump to itself. -/
def unencodedLoad : List Raw := [0x00000297, 0x0002a380, 0x0000006f]

/-- At the reset address, or already at the jump. -/
def unencodedStart (spins : Bool) : CPUState := ⟨.empty, if spins then mbase + 8 else mbase⟩

/-- The functional engine loads the word at the reset address, or does nothing but jump. -/
theorem unencodedLoad_trace (cores : Nat) (spins : Bool) (sys : Sys) (priv : sys.privLevel = machineLevel)
    (off : sys.pmpOnCount = 0) (hart : cores ≤ 1 → sys.hartid = 0) :
    ∃ t : Trace (hierarchy (.plain cores)),
      t.state 0 = ⟨unencodedStart spins, ⟨sys, MemState.init (image unencodedLoad) ()⟩⟩ ∧ t.Ordinary ∧ ∀ n,
        ((t.inst n).pc = 0x80000004 → (t.inst n).retired = ⟨0x80000004, some (7, 0x297), none⟩) ∧
        (t.inst n).itype ≠ .store ∧ (spins = true → (t.inst n).itype ≠ .load) := by
  have pcs : ∀ cpu ∈ flatCpus (image unencodedLoad) (unencodedStart spins) 2,
      inDram cpu.pc = true ∧ cpu.pc.toNat % 4 = 0 := by
    revert spins
    decide +kernel
  have known : ∀ cpu ∈ flatCpus (image unencodedLoad) (unencodedStart spins) 2,
      (flatInst (image unencodedLoad) cpu).itype.Plain = true ∧ (flatInst (image unencodedLoad) cpu).divDefined = true ∧
      (flatInst (image unencodedLoad) cpu).write = none ∧
      ((flatInst (image unencodedLoad) cpu).pc = 0x80000004 →
        (flatInst (image unencodedLoad) cpu).retired = ⟨0x80000004, some (7, 0x297), none⟩) ∧
      (spins = true → (flatInst (image unencodedLoad) cpu).itype ≠ .load) := by
    revert spins
    decide +kernel
  have machine : Unprotected cores ⟨image unencodedLoad, ∅⟩
      ⟨unencodedStart spins, ⟨sys, MemState.init (image unencodedLoad) ()⟩⟩ :=
    ⟨⟨init_represents _ _ _, hart⟩, priv, off⟩
  have closed : ∀ cpu ∈ flatCpus (image unencodedLoad) (unencodedStart spins) 2, FlatReads (image unencodedLoad) cpu ∧
      flatNext (image unencodedLoad) cpu ∈ flatCpus (image unencodedLoad) (unencodedStart spins) 2 := by
    cases spins with
    | false => exact flatCpus_closed (by decide +kernel) (by decide +kernel) (by decide +kernel)
    | true => exact flatCpus_closed (by decide +kernel) (by decide +kernel) (by decide +kernel)
  obtain ⟨t, start, states, insts⟩ := machine.trace rfl (flatCpus_start (image unencodedLoad) _ 2) closed
  have inst : ∀ n, ∃ cpu ∈ flatCpus (image unencodedLoad) (unencodedStart spins) 2,
      FlatReads (image unencodedLoad) cpu ∧ t.inst n = flatInst (image unencodedLoad) cpu := by
    intro n
    obtain ⟨cpu, member, same⟩ := insts n
    exact ⟨cpu, member, (closed cpu member).1, same⟩
  have unwritten : ∀ n w, w ∉ (t.inst n).write := by
    intro n w write
    obtain ⟨cpu, member, _, same⟩ := inst n
    rw [same, (known cpu member).2.2.1] at write
    cases write
  refine ⟨t, start, ⟨⟨fun n => (pcs _ (states n)).1, fun n => (pcs _ (states n)).2, ?_, ?_⟩, ?_, ?_, ?_⟩, ?_⟩
  · intro n access
    obtain ⟨cpu, _, reads, same⟩ := inst n
    rw [same] at access ⊢
    rcases access with load | store
    · exact reads.load load
    · exact absurd store reads.store
  · exact fun i n _ w write => absurd write (unwritten i w)
  · intro n
    obtain ⟨cpu, member, _, same⟩ := inst n
    rw [same]
    exact (known cpu member).1
  · intro n
    obtain ⟨cpu, member, _, same⟩ := inst n
    rw [same]
    exact (known cpu member).2.1
  · exact fun i n _ w write => absurd write (unwritten i w)
  · intro n
    obtain ⟨cpu, member, reads, same⟩ := inst n
    obtain ⟨_, _, _, loaded, idle⟩ := known cpu member
    rw [same]
    exact ⟨loaded, reads.store, idle⟩

/-- A commit of 0 by the instruction at `0x80000004` is not what the functional engine retires. -/
theorem unencodedLoad_lost {cores : Nat} {t : Trace (hierarchy (.plain cores))} {retired : List Retired}
    (loaded : ∀ n, (t.inst n).pc = 0x80000004 → (t.inst n).retired = ⟨0x80000004, some (7, 0x297), none⟩)
    (lost : ⟨0x80000004, some (7, 0), none⟩ ∈ retired) (n : Nat) :
    retired ≠ (List.range n).map fun i => (t.inst i).retired := by
  intro same
  rw [same] at lost
  obtain ⟨i, _, here⟩ := List.mem_map.mp lost
  have value := loaded i (congrArg Retired.pc here)
  rw [here] at value
  cases value

/-- The functional engine loads the word at the reset address. The out-of-order engine knows no load by these lowest
bits: the INT unit completes it, and it commits 0. -/
theorem unencoded_load_lost : ∃ (t : Trace (hierarchy (.plain 1))) (e : Engine (MemState Unit) Unit),
    t.state 0 = ⟨⟨.empty, mbase⟩, ⟨Sys.init, MemState.init (image unencodedLoad) ()⟩⟩ ∧ t.Ordinary ∧
    bootRun unencodedLoad 7 = some e ∧ ⟨0x80000004, some (7, 0), none⟩ ∈ retirements e.log ∧
      (∀ n, (t.inst n).pc = 0x80000004 → (t.inst n).retired = ⟨0x80000004, some (7, 0x297), none⟩) ∧
      ∀ n, retirements e.log ≠ (List.range n).map fun i => (t.inst i).retired := by
  obtain ⟨t, start, ordinary, insts⟩ := unencodedLoad_trace 1 false Sys.init rfl rfl fun _ => rfl
  have reached : (bootRun unencodedLoad 7).any (fun e =>
      decide ((⟨0x80000004, some (7, 0), none⟩ : Retired) ∈ retirements e.log)) = true := by
    decide +kernel
  obtain ⟨e, done, holds⟩ := (Option.any_eq_true _ _).mp reached
  have lost := of_decide_eq_true holds
  exact ⟨t, e, start, ordinary, done, lost, fun n => (insts n).1, unencodedLoad_lost (fun n => (insts n).1) lost⟩

end Sustemu
