import Sustemu.Cpu.Trace

/-!
# One instruction executed twice

Differential testing executes each instruction a second time, on registers of
its own but on the system state of the engine under test. What the second
execution computes is fixed by the instruction word and the registers, except
what it reads from memory and from CSRs.
-/

set_option autoImplicit false

namespace Sustemu

open Lib

/-! ## Operands from the reference registers -/

/-- The first operand of the reference instruction. -/
def IRInst.sourced1 (ir : IRInst) (gpr : RegFile) : IRInst :=
  match ir.rs1 with
  | some r => { ir with src1Val := gpr.get r }
  | none => ir

/-- The second operand of the reference instruction. -/
def IRInst.sourced2 (ir : IRInst) (gpr : RegFile) : IRInst :=
  match ir.rs2 with
  | some r => { ir with src2Val := gpr.get r }
  | none => ir

/-- The operands of the reference instruction are read from the reference registers. -/
def IRInst.sourced (ir : IRInst) (gpr : RegFile) : IRInst := (ir.sourced1 gpr).sourced2 gpr

theorem sourced1_sameInst (ir : IRInst) (gpr : RegFile) : ir.SameInst (ir.sourced1 gpr) ∧ (ir.sourced1 gpr).rd = ir.rd ∧
    (ir.sourced1 gpr).src2Val = ir.src2Val := by
  unfold IRInst.sourced1
  split
  · exact ⟨⟨rfl, rfl, rfl, rfl, rfl, rfl, rfl, rfl, id, fun _ => rfl⟩, rfl, rfl⟩
  · exact ⟨.refl _, rfl, rfl⟩

theorem sourced2_sameInst (ir : IRInst) (gpr : RegFile) : ir.SameInst (ir.sourced2 gpr) ∧ (ir.sourced2 gpr).rd = ir.rd ∧
    (ir.sourced2 gpr).src1Val = ir.src1Val := by
  unfold IRInst.sourced2
  split
  · exact ⟨⟨rfl, rfl, rfl, rfl, rfl, rfl, rfl, rfl, id, fun _ => rfl⟩, rfl, rfl⟩
  · exact ⟨.refl _, rfl, rfl⟩

theorem sourced_sameInst (ir : IRInst) (gpr : RegFile) : ir.SameInst (ir.sourced gpr) ∧ (ir.sourced gpr).rd = ir.rd := by
  obtain ⟨first, rd, _⟩ := sourced1_sameInst ir gpr
  obtain ⟨second, rd', _⟩ := sourced2_sameInst (ir.sourced1 gpr) gpr
  exact ⟨first.trans second, rd'.trans rd⟩

theorem sourced_src1 (ir : IRInst) (gpr : RegFile) : (ir.sourced gpr).src1Val = (ir.rs1.map gpr.get).getD ir.src1Val := by
  rw [IRInst.sourced, (sourced2_sameInst _ gpr).2.2]
  unfold IRInst.sourced1
  split
  · next r register => simp [register]
  · next absent => simp [absent]

theorem sourced_src2 (ir : IRInst) (gpr : RegFile) : (ir.sourced gpr).src2Val = (ir.rs2.map gpr.get).getD ir.src2Val := by
  have same := sourced1_sameInst ir gpr
  rw [← same.1.rs2, ← same.2.2]
  unfold IRInst.sourced IRInst.sourced2
  split
  · next r register => simp [register]
  · next absent => simp [absent]

theorem IRInst.Decoded.sourced {ir : IRInst} (decoded : ir.Decoded) (gpr : RegFile) :
    (ir.sourced gpr).Decoded ∧ (ir.sourced gpr).ReadsFrom gpr := by
  have same := (sourced_sameInst ir gpr).1
  refine ⟨decoded.sameInst same ?_ ?_, ?_, ?_⟩
  · intro none
    rw [sourced_src1, none]
    rfl
  · intro none
    rw [sourced_src2, none]
    rfl
  · intro r register
    rw [same.raw, ← decoded.rs1] at register
    rw [sourced_src1, register]
    rfl
  · intro r register
    rw [same.raw, ← decoded.rs2] at register
    rw [sourced_src2, register]
    rfl

/-! ## Executions -/

/-- `ir` comes from executing the word `raw` in the registers and at the program counter of `cpu`, in some system
state, and a load has read something. -/
def IRInst.ExecutedFrom (ir : IRInst) (cpu : CPUState) (raw : Raw) : Prop :=
  ∃ (d x : IRInst) (perf : Perf) (sys sys' : Sys), d.Decoded ∧ d.rd = rdOf d.raw ∧ d.pc = cpu.pc ∧ d.raw = raw ∧
    d.ReadsFrom cpu.gpr ∧ irExecute perf d sys = some (x, sys') ∧
      ∃ value, ir = { x with result := value } ∧ (x.itype ≠ .load → value = x.result)

/-- The instructions whose target comes from a CSR. -/
def ExecFn.Traps (fn : ExecFn) : Prop := fn = .ecall ∨ fn = .mret

instance (fn : ExecFn) : Decidable fn.Traps := inferInstanceAs (Decidable (_ ∨ _))

/-- What two executions of one instruction in the same registers share. -/
structure IRInst.Again (ir ir' : IRInst) : Prop where
  itype : ir'.itype = ir.itype
  rd : ir'.rd = ir.rd
  dnpc : ¬ ir.execFn.Traps → ir'.dnpc = ir.dnpc
  load : ir.itype = .load → ir'.memAddr = ir.memAddr ∧ ir'.memWidth = ir.memWidth ∧ ir'.memSign = ir.memSign
  result : ir.itype.Plain = true → ir.itype ≠ .load → ir.rd ≠ none → ir'.result = ir.result

/-- The destination after execution: system instructions and fences drop it. -/
theorem irExecute_rd {perf : Perf} {ir ir' : IRInst} {sys sys' : Sys}
    (executed : irExecute perf ir sys = some (ir', sys')) :
    ir'.rd = if ir.execFn.itype = .system ∨ ir.execFn.itype = .fence then none else ir.rd := by
  unfold irExecute at executed
  cases fn : ir.execFn <;> simp only [fn, ExecFn.pure] at executed <;>
    first
    | cases executed; rfl
    | obtain ⟨_, _, same⟩ := Option.map_eq_some_iff.mp executed
      cases same
      rfl

/-- The target of an instruction outside the plain ones. -/
theorem irExecute_straight {perf : Perf} {ir ir' : IRInst} {sys sys' : Sys}
    (executed : irExecute perf ir sys = some (ir', sys')) (other : ir.execFn.itype.Plain = false)
    (straight : ¬ ir.execFn.Traps) : ir'.dnpc = ir.snpc := by
  unfold irExecute at executed
  cases fn : ir.execFn <;> simp only [fn, ExecFn.pure] at executed straight other <;>
    first
    | cases executed; rfl
    | (cases other; done)
    | exact absurd (.inl rfl) straight
    | exact absurd (.inr rfl) straight
    | obtain ⟨_, _, same⟩ := Option.map_eq_some_iff.mp executed
      cases same
      rfl

theorem irExecute_plain {perf : Perf} {ir ir' : IRInst} {sys sys' : Sys}
    (executed : irExecute perf ir sys = some (ir', sys')) (plain : ir.execFn.itype.Plain = true) :
    ∃ run, ir.execFn.pure = some run ∧ ir' = run ir := by
  obtain ⟨run, executor⟩ := plain_pure plain
  unfold irExecute at executed
  rw [executor] at executed
  exact ⟨run, executor, (congrArg Prod.fst (Option.some.inj executed)).symm⟩

/-- Two executions of one instruction word in the same registers. -/
theorem IRInst.ExecutedFrom.again {ir ir' : IRInst} {cpu : CPUState} {raw : Raw} (first : ir.ExecutedFrom cpu raw)
    (second : ir'.ExecutedFrom cpu raw) : ir.Again ir' := by
  obtain ⟨d, x, perf, sys, s, decoded, rd, pc, word, reads, run, value, rfl, other⟩ := first
  obtain ⟨d', x', perf', sys', s', decoded', rd', pc', word', reads', run', value', rfl, other'⟩ := second
  have same : d'.raw = d.raw := word'.trans word.symm
  have fn : d'.execFn = d.execFn := by
    rw [decoded'.fn, decoded.fn, same]
  have fnX := (irExecute_sameInst run).1.execFn
  have kind := irExecute_itype run
  have kind' := (irExecute_itype run').trans (by rw [fn])
  have target : x'.rd = x.rd := by
    rw [irExecute_rd run', irExecute_rd run, fn, rd', rd, same]
  have itype : x'.itype = x.itype := kind'.trans kind.symm
  by_cases plain : d.execFn.itype.Plain = true
  · obtain ⟨step, executor, rfl⟩ := irExecute_plain run plain
    obtain ⟨step', executor', rfl⟩ := irExecute_plain run' (by rw [fn]; exact plain)
    rw [fn, executor] at executor'
    cases executor'
    have outcome := decoded.sameOutcome decoded' (pc'.trans pc.symm) same reads reads' executor plain
    refine ⟨itype, target, fun _ => outcome.dnpc, ?_, ?_⟩
    · intro load
      obtain ⟨addr, width, sign⟩ := outcome.access (.inl load)
      exact ⟨addr, width, sign load⟩
    · intro _ noLoad writes
      have dest : ¬(d.execFn.itype = .store ∨ d.execFn.itype = .branch) := by
        intro without
        apply writes
        change (step d).rd = none
        rw [(pure_rd executor plain d).1, rd]
        rw [decoded.fn] at without
        exact rdOf_eq_none without
      change value' = value
      rw [other noLoad, other' (by rw [itype]; exact noLoad)]
      exact outcome.result noLoad (fun store => dest (.inl (kind.symm.trans store)))
        fun branch => dest (.inr (kind.symm.trans branch))
  · have special : d.execFn.itype.Plain = false := by simpa using plain
    refine ⟨itype, target, ?_, ?_, ?_⟩
    · intro straight
      change ¬ x.execFn.Traps at straight
      rw [fnX] at straight
      change x'.dnpc = x.dnpc
      rw [irExecute_straight run special straight, irExecute_straight run' (by rw [fn]; exact special) (by rw [fn]; exact straight),
        decoded'.snpc, decoded.snpc, pc', pc]
    · intro load
      change x.itype = .load at load
      rw [kind] at load
      rw [load] at special
      cases special
    · intro isPlain
      change x.itype.Plain = true at isPlain
      rw [kind, special] at isPlain
      cases isPlain

theorem IRInst.ExecutedFrom.fields {ir : IRInst} {cpu : CPUState} {raw : Raw} (executed : ir.ExecutedFrom cpu raw) :
    ir.pc = cpu.pc ∧ ir.raw = raw ∧ ir.itype = (irSelect raw).2.1.itype := by
  obtain ⟨d, x, perf, sys, s, decoded, _, pc, word, _, run, value, rfl, _⟩ := executed
  have same := (irExecute_sameInst run).1
  exact ⟨same.pc.trans pc, same.raw.trans word, by
    change x.itype = _
    rw [irExecute_itype run, decoded.fn, word]⟩

/-! ## Executed records -/

namespace IRInst.SameOutcome

variable {ir ir' ir'' : IRInst}

theorem refl (ir : IRInst) : ir.SameOutcome ir := ⟨rfl, rfl, fun _ => ⟨rfl, rfl, fun _ => rfl⟩, fun _ _ _ => rfl⟩

theorem symm (same : ir.SameOutcome ir') : ir'.SameOutcome ir where
  itype := same.itype.symm
  dnpc := same.dnpc.symm
  access := by
    rw [same.itype]
    intro memory
    obtain ⟨addr, width, sign⟩ := same.access memory
    exact ⟨addr.symm, width.symm, fun load => (sign load).symm⟩
  result := by
    rw [same.itype]
    exact fun load store branch => (same.result load store branch).symm

theorem trans (first : ir.SameOutcome ir') (second : ir'.SameOutcome ir'') : ir.SameOutcome ir'' where
  itype := second.itype.trans first.itype
  dnpc := second.dnpc.trans first.dnpc
  access := by
    intro memory
    obtain ⟨addr, width, sign⟩ := first.access memory
    rw [← first.itype] at memory
    obtain ⟨addr', width', sign'⟩ := second.access memory
    exact ⟨addr'.trans addr, width'.trans width, fun load => (sign' (first.itype.trans load)).trans (sign load)⟩
  result := by
    intro load store branch
    have before := first.result load store branch
    rw [← first.itype] at load store branch
    exact (second.result load store branch).trans before

end IRInst.SameOutcome

/-- The record of an executed instruction: its executor would make the same of the operands it holds. -/
structure IRInst.Ran (ir : IRInst) : Prop where
  itype : ir.itype = ir.execFn.itype
  plain : ∀ run, ir.execFn.pure = some run → ir.execFn.itype.Plain = true → (run ir).SameOutcome ir
  straight : ir.execFn.itype.Plain = false → ¬ ir.execFn.Traps → ir.dnpc = ir.snpc

theorem irExecute_ran {perf : Perf} {ir ir' : IRInst} {sys sys' : Sys}
    (executed : irExecute perf ir sys = some (ir', sys')) : ir'.Ran := by
  have same := (irExecute_sameInst executed).1
  constructor
  · rw [irExecute_itype executed, same.execFn]
  · rw [same.execFn]
    intro run executor plain
    obtain ⟨run', executor', rfl⟩ := irExecute_plain executed plain
    cases executor'.symm.trans executor
    rw [pure_idempotent executor]
    exact .refl _
  · rw [same.execFn, same.snpc]
    exact irExecute_straight executed

/-- Fields outside the operands and the outcome do not matter. -/
theorem IRInst.Ran.congr {ir ir' : IRInst} (ran : ir.Ran) (outcome : ir.SameOutcome ir') (pc : ir'.pc = ir.pc)
    (snpc : ir'.snpc = ir.snpc) (imm : ir'.imm = ir.imm) (fn : ir'.execFn = ir.execFn) (src1 : ir'.src1Val = ir.src1Val)
    (src2 : ir'.src2Val = ir.src2Val) : ir'.Ran := by
  constructor
  · rw [outcome.itype, fn]
    exact ran.itype
  · rw [fn]
    intro run executor plain
    have again : (run ir).SameOutcome (run ir') := pure_sameOutcome pc snpc src1 executor plain (fun _ => src2) fun _ => imm
    exact again.symm.trans ((ran.plain run executor plain).trans outcome)
  · rw [fn, outcome.dnpc, snpc]
    exact ran.straight

/-- Two executions of one instruction with operands from the same registers. -/
theorem IRInst.Ran.sameOutcome {ir ir' : IRInst} (ran : ir.Ran) (ran' : ir'.Ran) (decoded : ir.Decoded)
    (decoded' : ir'.Decoded) (pc : ir'.pc = ir.pc) (raw : ir'.raw = ir.raw) {gpr : RegFile} (reads : ir.ReadsFrom gpr)
    (reads' : ir'.ReadsFrom gpr) (plain : ir.execFn.itype.Plain = true) : ir.SameOutcome ir' := by
  have fn : ir'.execFn = ir.execFn := by
    rw [decoded'.fn, decoded.fn, raw]
  obtain ⟨run, executor⟩ := plain_pure plain
  have first := ran.plain run executor plain
  have second := ran'.plain run (by rw [fn]; exact executor) (by rw [fn]; exact plain)
  exact first.symm.trans ((decoded.sameOutcome decoded' pc raw reads reads' executor plain).trans second)

/-- The next program counter does not depend on the system state, traps and returns apart. -/
theorem IRInst.Ran.sameNext {ir ir' : IRInst} (ran : ir.Ran) (ran' : ir'.Ran) (decoded : ir.Decoded)
    (decoded' : ir'.Decoded) (pc : ir'.pc = ir.pc) (raw : ir'.raw = ir.raw) {gpr : RegFile} (reads : ir.ReadsFrom gpr)
    (reads' : ir'.ReadsFrom gpr) (stays : ¬ ir.execFn.Traps) : ir'.dnpc = ir.dnpc := by
  cases plain : ir.execFn.itype.Plain with
  | true => exact (ran.sameOutcome ran' decoded decoded' pc raw reads reads' plain).dnpc
  | false =>
      have fn : ir'.execFn = ir.execFn := by
        rw [decoded'.fn, decoded.fn, raw]
      rw [ran.straight plain stays, ran'.straight (by rw [fn]; exact plain) (by rw [fn]; exact stays), decoded'.snpc,
        decoded.snpc, pc]

/-- System instructions and fences have no destination. -/
theorem rdOf_special {raw : Raw} (kind : (irSelect raw).2.1.itype = .system ∨ (irSelect raw).2.1.itype = .fence) :
    rdOf raw = none := by
  have table : ∀ selected ∈ selections, selected.2.1.itype = .system ∨ selected.2.1.itype = .fence →
      selected.1 = .N := by decide +kernel
  unfold rdOf
  rw [table _ (irSelect_mem raw) kind]

/-- The result of a plain instruction other than a load depends on the registers alone. -/
theorem IRInst.Ran.sameResult {ir ir' : IRInst} (ran : ir.Ran) (ran' : ir'.Ran) (decoded : ir.Decoded)
    (decoded' : ir'.Decoded) (pc : ir'.pc = ir.pc) (raw : ir'.raw = ir.raw) {gpr : RegFile} (reads : ir.ReadsFrom gpr)
    (reads' : ir'.ReadsFrom gpr) (writes : rdOf ir.raw ≠ none) (plain : ir.itype.Plain = true) (load : ir.itype ≠ .load) :
    ir'.result = ir.result := by
  have kind : ir.itype = (irSelect ir.raw).2.1.itype := by
    rw [ran.itype, decoded.fn]
  have store : ir.itype ≠ .store := fun store => writes (rdOf_eq_none (.inl (kind.symm.trans store)))
  have branch : ir.itype ≠ .branch := fun branch => writes (rdOf_eq_none (.inr (kind.symm.trans branch)))
  rw [ran.itype] at plain
  exact (ran.sameOutcome ran' decoded decoded' pc raw reads reads' plain).result load store branch

/-- Divisions and remainders. -/
def ExecFn.divides : ExecFn → Bool
  | .div | .divu | .rem | .remu | .divw | .divuw | .remw | .remuw => true
  | _ => false

theorem IRInst.divDefined_of_other {ir : IRInst} (other : ir.execFn.divides = false) : ir.divDefined = true := by
  unfold divDefined
  revert other
  cases ir.execFn <;> intro other <;> first | rfl | cases other

/-- Divisions read both operands from registers. -/
theorem IRInst.Decoded.sameDivision {ir ir' : IRInst} (decoded : ir.Decoded) (fn : ir'.execFn = ir.execFn) (raw : ir'.raw = ir.raw)
    {gpr : RegFile} (reads : ir.ReadsFrom gpr) (reads' : ir'.ReadsFrom gpr) : ir'.divDefined = ir.divDefined := by
  cases division : ir.execFn.divides with
  | false => rw [divDefined_of_other division, divDefined_of_other (by rw [fn]; exact division)]
  | true =>
      have table : ∀ selected ∈ selections, selected.2.1.divides = true → selected.1 = .R := by decide +kernel
      rw [decoded.fn] at division
      have kind := table _ (irSelect_mem ir.raw) division
      have first : rs1Of ir.raw = some (regField ir.raw 15) := by
        unfold rs1Of
        rw [kind]
      have second : rs2Of ir.raw = some (regField ir.raw 20) := by
        unfold rs2Of
        rw [kind]
      have src1 : ir'.src1Val = ir.src1Val := by
        rw [reads.src1 _ first, reads'.src1 _ (by rw [raw]; exact first)]
      have src2 : ir'.src2Val = ir.src2Val := by
        rw [reads.src2 _ second, reads'.src2 _ (by rw [raw]; exact second)]
      unfold divDefined
      rw [fn, src1, src2]

section Once

variable {σ : Type} {vm : VMem σ} {stack ir : IRInst} {m m' : Machine σ}

/-- One step of the functional engine, over any memory. -/
theorem execOnce_executedFrom (done : execOnce vm stack m = some (ir, m')) :
    ir.ExecutedFrom m.cpu ir.raw ∧ m'.cpu = ⟨irWriteback ir m.cpu.gpr, ir.dnpc⟩ := by
  simp only [execOnce, Option.bind_eq_bind, Option.bind_eq_some_iff] at done
  obtain ⟨⟨word, w₁⟩, _, ⟨x, sys'⟩, run, ⟨ir', w₂⟩, accessed, last⟩ := done
  cases last
  obtain ⟨fetched, atPc, raw⟩ := irDecode_fetched m.cpu.gpr (word.setWidth 32) m.cpu.pc stack
  have reads := irDecode_reads m.cpu.gpr (word.setWidth 32) m.cpu.pc stack
  have result : ∃ value, ir' = { x with result := value } ∧ (x.itype ≠ .load → value = x.result) := by
    unfold irMemAccess at accessed
    split at accessed
    · next load =>
        obtain ⟨_, _, same⟩ := Option.map_eq_some_iff.mp accessed
        cases same
        exact ⟨_, rfl, fun other => absurd load other⟩
    · obtain ⟨_, _, same⟩ := Option.map_eq_some_iff.mp accessed
      cases same
      exact ⟨_, rfl, fun _ => rfl⟩
    · cases accessed
      exact ⟨_, rfl, fun _ => rfl⟩
  refine ⟨⟨_, x, _, _, sys', fetched.decoded, fetched.rd, atPc, ?_, reads, run, result⟩, rfl⟩
  obtain ⟨value, rfl, _⟩ := result
  exact ((irExecute_sameInst run).1.raw).symm

/-- The record that the functional engine leaves. -/
theorem execOnce_ran (done : execOnce vm stack m = some (ir, m')) :
    ir.Ran ∧ ir.Decoded ∧ ir.ReadsFrom m.cpu.gpr ∧ ir.pc = m.cpu.pc ∧ ir.rd = rdOf ir.raw := by
  obtain ⟨d, x, perf, sys, s, decoded, rd, pc, word, reads, run, value, rfl, other⟩ := (execOnce_executedFrom done).1
  obtain ⟨same, src1, src2⟩ := irExecute_sameInst run
  have ran := irExecute_ran run
  have decodedX : x.Decoded := decoded.sameInst same (fun _ => src1) fun _ => src2
  refine ⟨ran.congr ⟨rfl, rfl, fun _ => ⟨rfl, rfl, fun _ => rfl⟩, fun load _ _ => other load⟩ rfl rfl rfl rfl rfl rfl,
    ⟨decodedX.snpc, decodedX.fn, decodedX.rs1, decodedX.rs2, decodedX.src1, decodedX.src2, decodedX.imm, decodedX.width,
      decodedX.blank⟩, ⟨?_, ?_⟩, same.pc.trans pc, ?_⟩
  · intro r register
    change rs1Of x.raw = some r at register
    rw [same.raw] at register
    exact src1.trans (reads.src1 r register)
  · intro r register
    change rs2Of x.raw = some r at register
    rw [same.raw] at register
    exact src2.trans (reads.src2 r register)
  · change x.rd = rdOf x.raw
    rw [irExecute_rd run, same.raw, rd]
    split
    · next special =>
        rw [decoded.fn] at special
        exact (rdOf_special special).symm
    · rfl

end Once

/-! ## Runs -/

/-- A run of the functional engine over `length` instructions. -/
structure Execution {σ : Type} (vm : VMem σ) (length : Nat) where
  stack : Nat → IRInst
  state : Nat → Machine σ
  inst : Nat → IRInst
  step : ∀ n, n < length → execOnce vm (stack n) (state n) = some (inst n, state (n + 1))

/-- The first instructions of a trace. -/
def Trace.upto {σ : Type} {vm : VMem σ} (t : Trace vm) (length : Nat) : Execution vm length :=
  ⟨t.stack, t.state, t.inst, fun n _ => t.step n⟩

/-- Every run of the functional engine is an execution. -/
theorem Execution.of_execMany {σ : Type} {vm : VMem σ} {stack : Nat → IRInst} {n : Nat} {m m' : Machine σ}
    {insts : List IRInst} (done : execMany vm stack n m = some (insts, m')) :
    ∃ t : Execution vm n, t.state 0 = m ∧ t.state n = m' ∧ insts = (List.range n).map t.inst := by
  induction n generalizing insts m' with
  | zero =>
      cases done
      exact ⟨⟨stack, fun _ => m, fun _ => .zero, fun _ absurdity => absurd absurdity (Nat.not_lt_zero _)⟩, rfl, rfl, rfl⟩
  | succ n ih =>
      simp only [execMany, Option.bind_eq_bind, Option.bind_eq_some_iff] at done
      obtain ⟨⟨before, m₁⟩, earlier, ⟨ir, m₂⟩, last, same⟩ := done
      cases same
      obtain ⟨t, start, here, insts⟩ := ih earlier
      have step : ∀ i, i < n + 1 → execOnce vm (setAt t.stack n (stack n) i) (setAt t.state (n + 1) m₂ i) =
          some (setAt t.inst n ir i, setAt t.state (n + 1) m₂ (i + 1)) := by
        intro i inside
        rcases Nat.lt_succ_iff_lt_or_eq.mp inside with older | newest
        · rw [setAt_of_ne (by omega), setAt_of_ne (by omega), setAt_of_ne (by omega),
            setAt_of_ne (by omega)]
          exact t.step i older
        · rw [newest, setAt_self, setAt_self, setAt_self, setAt_of_ne (by omega), here]
          exact last
      refine ⟨⟨_, _, _, step⟩, ?_, setAt_self (n + 1) m₂ t.state, ?_⟩
      · exact (setAt_of_ne (Nat.succ_ne_zero n).symm m₂ t.state).trans start
      · rw [insts, List.range_succ, List.map_append, List.map_singleton]
        dsimp only
        rw [setAt_self]
        congr 1
        apply List.map_congr_left
        intro i member
        exact (setAt_of_ne (List.mem_range.mp member).ne ir t.inst).symm

end Sustemu
