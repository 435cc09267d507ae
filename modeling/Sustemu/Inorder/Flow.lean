import Sustemu.Inorder.Stages
import Sustemu.Cpu.Sequential

/-!
# The pipeline executes in program order

Between two cycles the latches hold consecutive instructions: the one to write
back is complete, the one before its memory access is executed, the one before
execution has its operands. `Flow` says so relative to the state `a` that the
hart reaches once the write-back latch is empty. A cycle moves `a` by the
instruction that leaves the memory stage.
-/

set_option autoImplicit false

namespace Sustemu

open Lib

/-! ## Latches -/

namespace PipeReg

/-- The registers after the instruction in a latch. -/
def retired (r : PipeReg) (cpu : CPUState) : CPUState :=
  if r.valid then ⟨irWriteback r.ir cpu.gpr, r.ir.dnpc⟩ else cpu

/-- The latch after its memory access. -/
def loaded (r : PipeReg) (value : Word) : PipeReg := ⟨r.ir.withLoad value, r.valid⟩

theorem retired_of_valid {r : PipeReg} (valid : r.valid = true) (cpu : CPUState) :
    r.retired cpu = ⟨irWriteback r.ir cpu.gpr, r.ir.dnpc⟩ := if_pos valid

theorem retired_of_empty {r : PipeReg} (empty : r.valid = false) (cpu : CPUState) : r.retired cpu = cpu := by
  unfold retired
  rw [if_neg]
  rw [empty]
  exact Bool.false_ne_true

theorem loaded_retired_pc (r : PipeReg) (value : Word) (cpu : CPUState) :
    ((r.loaded value).retired cpu).pc = if r.valid then r.ir.dnpc else cpu.pc := by
  unfold retired loaded
  split <;> simp

/-- A result is forwarded to the readers of the register it will be written to. -/
theorem retired_get (r : PipeReg) (cpu : CPUState) {a : Reg} (nonzero : a ≠ 0) :
    (r.retired cpu).gpr.get a = (r.forwards a).getD (cpu.gpr.get a) := by
  unfold forwards
  cases valid : r.valid with
  | false => rw [retired_of_empty valid]; simp
  | true =>
      rw [retired_of_valid valid, irWriteback_get _ _ nonzero]
      split <;> simp_all

end PipeReg

/-- The record was decoded, with whatever registers. -/
def IRInst.IsDecoded (ir : IRInst) : Prop := ∃ gpr, irDecode gpr ir.raw ir.pc (ir.pc + 4) ir = ir

/-- Replaced source operands of a decoded record. -/
theorem IRInst.IsDecoded.replace {ir : IRInst} (decoded : ir.IsDecoded) {gpr : RegFile} {src1 src2 : Word}
    (reads1 : ∀ r, ir.rs1 = some r → src1 = gpr.get r) (keeps1 : ir.rs1 = none → src1 = ir.src1Val)
    (reads2 : ∀ r, ir.rs2 = some r → src2 = gpr.get r) (keeps2 : ir.rs2 = none → src2 = ir.src2Val) :
    irDecode gpr ir.raw ir.pc (ir.pc + 4) { ir with src1Val := src1, src2Val := src2 } =
      { ir with src1Val := src1, src2Val := src2 } := by
  obtain ⟨gpr₀, fixed⟩ := decoded
  have replaced := irDecode_operands gpr₀ gpr ir.raw ir.pc (ir.pc + 4) ir src1 src2
  rw [fixed] at replaced
  exact replaced reads1 keeps1 reads2 keeps2

theorem IRInst.IsDecoded.zero {ir : IRInst} (decoded : ir.IsDecoded) :
    (ir.rs1 = some 0 → ir.src1Val = 0) ∧ (ir.rs2 = some 0 → ir.src2Val = 0) := by
  obtain ⟨gpr, fixed⟩ := decoded
  have zero := irDecode_zero gpr ir.raw ir.pc (ir.pc + 4) ir
  rw [fixed] at zero
  exact zero

section Operands

variable (value : Reg → Option Word) (old : Word)

theorem operand_none : operand value none old = old := rfl

theorem operand_zero : operand value (some 0) old = old := rfl

theorem operand_some {r : Reg} (nonzero : r ≠ 0) : operand value (some r) old = (value r).getD old := by
  simp [operand, Option.filter, nonzero]

end Operands

/-- An operand after the decode stage, where the execute stage holds no load of its register. -/
theorem operand_forwarded {mem ex : PipeReg} {cpu : CPUState} {r : Reg} (nonzero : r ≠ 0) (old value : Word)
    (safe : ex.valid = true → ex.ir.itype = .load → ex.ir.rd ≠ some r) :
    (if ex.ir.itype ≠ .load then
      operand ex.forwards (some r) (operand mem.forwards (some r) (operand (fun r => some (cpu.gpr.get r)) (some r) old))
    else operand mem.forwards (some r) (operand (fun r => some (cpu.gpr.get r)) (some r) old)) =
      ((ex.loaded value).retired (mem.retired cpu)).gpr.get r := by
  rw [PipeReg.retired_get _ _ nonzero, PipeReg.retired_get _ _ nonzero]
  simp only [operand_some _ _ nonzero, Option.getD_some]
  split
  · next other =>
      unfold PipeReg.forwards PipeReg.loaded
      rw [withLoad_other value other]
  · next load =>
      have none : (ex.loaded value).forwards r = none := by
        unfold PipeReg.forwards PipeReg.loaded
        rw [if_neg]
        simp only [withLoad_rd]
        rintro ⟨valid, rd⟩
        exact safe valid (not_not.mp load) rd
      rw [none, Option.getD_none]

/-- The decode stage gives the operands that the instructions ahead leave in their registers. -/
theorem IRInst.IsDecoded.forwarded {ir : IRInst} (decoded : ir.IsDecoded) (mem : PipeReg) {ex : PipeReg} (cpu : CPUState)
    (free : Inorder.loadUse ex ir = false) (value : Word) :
    irDecode ((ex.loaded value).retired (mem.retired cpu)).gpr ir.raw ir.pc (ir.pc + 4) (ir.forwarded cpu.gpr mem ex) =
      ir.forwarded cpu.gpr mem ex := by
  have shape : ir.forwarded cpu.gpr mem ex = { ir with
      src1Val := if ex.ir.itype ≠ .load then
          operand ex.forwards ir.rs1 (operand mem.forwards ir.rs1 (operand (fun r => some (cpu.gpr.get r)) ir.rs1 ir.src1Val))
        else operand mem.forwards ir.rs1 (operand (fun r => some (cpu.gpr.get r)) ir.rs1 ir.src1Val)
      src2Val := if ex.ir.itype ≠ .load then
          operand ex.forwards ir.rs2 (operand mem.forwards ir.rs2 (operand (fun r => some (cpu.gpr.get r)) ir.rs2 ir.src2Val))
        else operand mem.forwards ir.rs2 (operand (fun r => some (cpu.gpr.get r)) ir.rs2 ir.src2Val) } := by
    unfold IRInst.forwarded IRInst.reread
    split <;> rfl
  have safe : ∀ r, r ≠ 0 → ir.rs1 = some r ∨ ir.rs2 = some r → ex.valid = true → ex.ir.itype = .load →
      ex.ir.rd ≠ some r := by
    intro r nonzero uses valid load rd
    unfold Inorder.loadUse at free
    simp_all
  rw [shape]
  apply decoded.replace
  · intro r source
    rw [source]
    by_cases zero : r = 0
    · subst zero
      rw [RegFile.get_zero]
      simp only [operand_zero, ite_self]
      exact decoded.zero.1 source
    · exact operand_forwarded zero _ value (safe r zero (.inl source))
  · intro none
    rw [none]
    simp only [operand_none, ite_self]
  · intro r source
    rw [source]
    by_cases zero : r = 0
    · subst zero
      rw [RegFile.get_zero]
      simp only [operand_zero, ite_self]
      exact decoded.zero.2 source
    · exact operand_forwarded zero _ value (safe r zero (.inr source))
  · intro none
    rw [none]
    simp only [operand_none, ite_self]

/-- Reading the registers again leaves a record decoded. -/
theorem IRInst.IsDecoded.reread {ir : IRInst} (decoded : ir.IsDecoded) (gpr : RegFile) :
    (ir.reread fun r => some (gpr.get r)).IsDecoded := by
  have same : ∀ {rs : Option Reg} {old : Word}, (rs = some 0 → old = 0) → ∀ r, rs = some r →
      operand (fun r => some (gpr.get r)) rs old = gpr.get r := by
    intro rs old isZero r source
    subst source
    by_cases zero : r = 0
    · subst zero
      rw [operand_zero, RegFile.get_zero]
      exact isZero rfl
    · rw [operand_some _ _ zero, Option.getD_some]
  refine ⟨gpr, decoded.replace (same decoded.zero.1) ?_ (same decoded.zero.2) ?_⟩
  · intro none
    rw [none, operand_none]
  · intro none
    rw [none, operand_none]

/-! ## The stages on latches -/

section Latches

variable {σ β : Type} {vm : VMem σ} {cfg : PipeConfig β}

theorem MemStage.loaded {r r' : PipeReg} {w w' : World σ} (stage : MemStage vm r w r' w') (tame : vm.Tame) :
    w.sys.SameArch w'.sys ∧ ∃ value, r' = r.loaded value := by
  cases stage with
  | bubble empty =>
      refine ⟨.refl _, r.ir.result, ?_⟩
      unfold PipeReg.loaded IRInst.withLoad
      split <;> rfl
  | access valid done =>
      unfold irMemAccessLat at done
      split at done
      · next load =>
          obtain ⟨⟨level, raw, world⟩, read, same⟩ := Option.map_eq_some_iff.mp done
          cases same
          refine ⟨tame.readLevel read, extend r.ir.memSign r.ir.memWidth raw, ?_⟩
          unfold PipeReg.loaded IRInst.withLoad
          rw [if_pos load, valid]
      · next store =>
          obtain ⟨world, wrote, same⟩ := Option.map_eq_some_iff.mp done
          cases same
          refine ⟨tame.write wrote, 0, ?_⟩
          unfold PipeReg.loaded
          rw [withLoad_other _ (by rw [store]; decide), valid]
      · next other _ =>
          cases done
          refine ⟨.refl _, 0, ?_⟩
          unfold PipeReg.loaded
          rw [withLoad_other _ other, valid]

variable (cfg) in
/-- An executed instruction keeps its place, and only a valid one is executed. -/
theorem ExStage.keeps {r r' : PipeReg} {w w' : World σ} (stage : ExStage vm r w r' w') :
    r'.valid = r.valid ∧ r'.ir.pc = r.ir.pc ∧ r'.ir.raw = r.ir.raw ∧ cfg.predicted r'.ir = cfg.predicted r.ir := by
  cases stage with
  | bubble empty => exact ⟨rfl, rfl, rfl, rfl⟩
  | execute valid done =>
      obtain ⟨same, _⟩ := irExecute_sameInst done
      refine ⟨valid.symm, same.pc, same.raw, ?_⟩
      unfold PipeConfig.predicted
      rw [same.bpPredictedPc, same.snpc]

theorem ExStage.hart {r r' : PipeReg} {w w' : World σ} (stage : ExStage vm r w r' w') : w'.sys.hartid = w.sys.hartid := by
  cases stage with
  | bubble empty => rfl
  | execute valid done =>
      rw [← irExecute_hartid done]
      simp only
      split <;> rfl

/-- The execute stage performs its instruction, up to the value a load will read. -/
theorem ExStage.performs {r r' : PipeReg} {w w' : World σ} (stage : ExStage vm r w r' w') (valid : r.valid = true)
    {h : Fin 2} {s : CoreArch} (hart : w.sys.hartid = h) (arch : s = .save s.cpu w.sys) (awaits : r.ir.Awaits s.cpu)
    (value : Word) : Performs h s (r'.ir.withLoad value) (.save ((r'.loaded value).retired s.cpu) w'.sys) := by
  cases stage with
  | bubble empty =>
      rw [empty] at valid
      cases valid
  | execute valid done =>
      have performs := Performs.intro value awaits hart arch done
      rw [PipeReg.retired_of_valid rfl]
      simp only [PipeReg.loaded, withLoad_dnpc]
      split
      · exact performs
      · exact performs

end Latches

namespace Inorder

variable {σ β : Type} {vm : VMem σ} {cfg : PipeConfig β} {e e' e₀ : Inorder σ β} {h : Fin 2} {a : CoreArch}

variable (cfg) in
/-- Where the fetch continues after the instruction in a latch. -/
def guess (r : PipeReg) (pc : Word) : Word := if r.valid then cfg.predicted r.ir else pc

theorem written_eq (e : Inorder σ β) : e.written = (e.pipe.reg .wb).retired e.cpu := rfl

variable (cfg) in
/-- The latches hold consecutive instructions of hart `h`; it reaches `a` once the write-back latch is empty. -/
structure Flow (h : Fin 2) (a : CoreArch) (e : Inorder σ β) : Prop where
  hart : e.world.sys.hartid = h
  cpu : a.cpu = e.written
  idle : (e.pipe.reg .mem).valid = false → a = .save a.cpu e.world.sys
  performed : (e.pipe.reg .mem).valid = true → ∀ value, Performs h a ((e.pipe.reg .mem).ir.withLoad value)
    (.save (((e.pipe.reg .mem).loaded value).retired a.cpu) e.world.sys)
  ready : (e.pipe.reg .ex).valid = true → ∀ value, (e.pipe.reg .ex).ir.Awaits
    (((e.pipe.reg .mem).loaded value).retired a.cpu)
  follows : (e.pipe.reg .id).valid = true → (e.pipe.reg .id).ir.IsDecoded ∧
    ∀ value, (e.pipe.reg .id).ir.pc = guess cfg (e.pipe.reg .ex) (((e.pipe.reg .mem).loaded value).retired a.cpu).pc
  fetch : ∀ value, e.pipe.fetchPc = guess cfg (e.pipe.reg .id)
    (guess cfg (e.pipe.reg .ex) (((e.pipe.reg .mem).loaded value).retired a.cpu).pc)

theorem steer_of_valid {ex id : PipeReg} {pc : Word} (live : (cfg.steer ex id pc).1.valid = true) :
    (cfg.steer ex id pc).1 = id := by
  unfold PipeConfig.steer at live ⊢
  split at live
  · cases live
  · next straight => rw [if_neg straight]

/-- The execute stage leaves the decode latch and the fetch on the path of the executed instruction. -/
theorem steer_follows {ex ex' id : PipeReg} {pc fetchPc : Word} {w w' : World σ} (stage : ExStage vm ex w ex' w')
    (follows : id.valid = true → id.ir.pc = guess cfg ex pc) (fetch : fetchPc = guess cfg id (guess cfg ex pc)) :
    ((cfg.steer ex' id fetchPc).1.valid = true →
      id.valid = true ∧ (cfg.steer ex' id fetchPc).1 = id ∧ id.ir.pc = if ex'.valid then ex'.ir.dnpc else pc) ∧
    (cfg.steer ex' id fetchPc).2 = guess cfg (cfg.steer ex' id fetchPc).1 (if ex'.valid then ex'.ir.dnpc else pc) := by
  obtain ⟨valid, _, _, predicted⟩ := stage.keeps cfg
  have same : guess cfg ex pc = guess cfg ex' pc := by
    unfold guess
    rw [valid, predicted]
  rw [same] at follows fetch
  unfold PipeConfig.steer
  by_cases redirects : cfg.redirects ex'
  · rw [if_pos redirects]
    refine ⟨nofun, ?_⟩
    unfold guess
    rw [if_neg (by simp), if_pos redirects.1]
  · have next : guess cfg ex' pc = if ex'.valid then ex'.ir.dnpc else pc := by
      unfold guess
      split
      · next executed => exact (not_not.mp fun wrong => redirects ⟨executed, wrong⟩).symm
      · rfl
    rw [if_neg redirects, ← next]
    exact ⟨fun live => ⟨live, rfl, follows live⟩, fetch⟩

variable (cfg) in
/-- The decode stage keeps the place of its instruction. -/
theorem decodeStage_keeps (gpr : RegFile) (mem ex id : PipeReg) :
    (decodeStage gpr mem ex id).1.valid = id.valid ∧ (decodeStage gpr mem ex id).1.ir.pc = id.ir.pc ∧
      (decodeStage gpr mem ex id).1.ir.raw = id.ir.raw ∧ cfg.predicted (decodeStage gpr mem ex id).1.ir = cfg.predicted id.ir := by
  unfold decodeStage IRInst.forwarded IRInst.reread PipeConfig.predicted
  cases valid : id.valid with
  | false => exact ⟨valid, rfl, rfl, rfl⟩
  | true =>
      simp only [if_true]
      split
      · exact ⟨rfl, rfl, rfl, rfl⟩
      · split <;> exact ⟨rfl, rfl, rfl, rfl⟩

theorem guess_decodeStage (gpr : RegFile) (mem ex id : PipeReg) (pc : Word) :
    guess cfg (decodeStage gpr mem ex id).1 pc = guess cfg id pc := by
  obtain ⟨valid, _, _, predicted⟩ := decodeStage_keeps cfg gpr mem ex id
  unfold guess
  rw [valid, predicted]

theorem Fetches.sameArch {w : World σ} {id : PipeReg} {pc : Word} {stalled : Bool}
    (front : Fetches vm cfg w id pc e' stalled) (tame : vm.Tame) : w.sys.SameArch e'.world.sys := by
  cases front with
  | stall ex id fetch world =>
      rw [world]
      exact .refl _
  | fetch read guess ex id fetch world =>
      rw [world]
      exact tame.ifetch read

/-- What a fetched instruction looks like. -/
theorem predicted_fetched {bpred bpred' : β} {pc next : Word} {raw : Raw} {taken : Bool} (gpr : RegFile) (junk : IRInst)
    (guessed : predict cfg bpred pc raw = (taken, next, bpred')) :
    cfg.predicted ((irDecode gpr raw pc (pc + 4) junk).annotate taken next) = next := by
  unfold PipeConfig.predicted
  split
  · rfl
  · next off =>
      unfold predict at guessed
      rw [if_neg (by simp [off])] at guessed
      cases guessed
      exact (irDecode_fetched gpr raw pc junk).1.decoded.snpc.trans (by rw [(irDecode_fetched gpr raw pc junk).2.1])

theorem irDecode_annotate (gpr : RegFile) (raw : Raw) (pc snpc : Word) (junk : IRInst) (taken : Bool) (next : Word) :
    irDecode gpr raw pc snpc (junk.annotate taken next) = (irDecode gpr raw pc snpc junk).annotate taken next := by
  unfold irDecode irFillOperands
  obtain ⟨format, fn, serializing⟩ := irSelect raw
  cases format <;> rfl

theorem fetched_isDecoded (gpr : RegFile) (raw : Raw) (pc : Word) (junk : IRInst) (taken : Bool) (next : Word) :
    ((irDecode gpr raw pc (pc + 4) junk).annotate taken next).IsDecoded := by
  obtain ⟨_, atPc, word⟩ := irDecode_fetched gpr raw pc junk
  refine ⟨gpr, ?_⟩
  have pcs : ((irDecode gpr raw pc (pc + 4) junk).annotate taken next).pc = pc := atPc
  have words : ((irDecode gpr raw pc (pc + 4) junk).annotate taken next).raw = raw := word
  rw [pcs, words, irDecode_annotate, irDecode_idem]

/-- The decode stage on a latch that follows the executed instruction. -/
theorem decodeStage_ready {id mem ex : PipeReg} {cpu : CPUState} (valid : id.valid = true) (decoded : id.ir.IsDecoded)
    (atPc : id.ir.pc = if ex.valid then ex.ir.dnpc else (mem.retired cpu).pc)
    (moves : (decodeStage cpu.gpr mem ex id).2 = false) (value : Word) :
    (decodeStage cpu.gpr mem ex id).1.ir.Awaits ((ex.loaded value).retired (mem.retired cpu)) := by
  unfold decodeStage at moves ⊢
  rw [if_pos valid] at moves ⊢
  split at moves
  · cases moves
  · next free =>
      rw [if_neg free]
      have forwarded := decoded.forwarded mem cpu (by simpa using free) value
      have same : (id.ir.forwarded cpu.gpr mem ex).pc = id.ir.pc ∧ (id.ir.forwarded cpu.gpr mem ex).raw = id.ir.raw := by
        unfold IRInst.forwarded IRInst.reread
        split <;> exact ⟨rfl, rfl⟩
      refine ⟨?_, ?_⟩
      · rw [PipeReg.loaded_retired_pc, same.1, atPc]
      · rw [same.1, same.2]
        exact forwarded

theorem decodeStage_waits {id mem ex : PipeReg} {gpr : RegFile} (decoded : id.valid = true → id.ir.IsDecoded)
    (stalls : (decodeStage gpr mem ex id).2 = true) : (decodeStage gpr mem ex id).1.ir.IsDecoded := by
  unfold decodeStage at stalls ⊢
  split at stalls
  · next valid =>
      rw [if_pos valid]
      split at stalls
      · next busy =>
          rw [if_pos busy]
          exact (decoded valid).reread gpr
      · cases stalls
  · cases stalls

theorem guess_of_empty {r : PipeReg} (empty : r.valid = false) (pc : Word) : guess cfg r pc = pc := by
  unfold guess
  rw [empty]
  rfl

/-- The front of the pipeline after a cycle. -/
theorem Fetches.flow {id mem ex : PipeReg} {cpu : CPUState} {pc : Word} {w : World σ}
    (front : Fetches vm cfg w (decodeStage cpu.gpr mem ex id).1 pc e' (decodeStage cpu.gpr mem ex id).2)
    (decoded : id.valid = true → id.ir.IsDecoded)
    (follows : id.valid = true → id.ir.pc = if ex.valid then ex.ir.dnpc else (mem.retired cpu).pc)
    (fetches : pc = guess cfg id (if ex.valid then ex.ir.dnpc else (mem.retired cpu).pc)) (value : Word) :
    ((e'.pipe.reg .ex).valid = true → (e'.pipe.reg .ex).ir.Awaits ((ex.loaded value).retired (mem.retired cpu))) ∧
    ((e'.pipe.reg .id).valid = true → (e'.pipe.reg .id).ir.IsDecoded ∧ (e'.pipe.reg .id).ir.pc =
      guess cfg (e'.pipe.reg .ex) ((ex.loaded value).retired (mem.retired cpu)).pc) ∧
    e'.pipe.fetchPc = guess cfg (e'.pipe.reg .id)
      (guess cfg (e'.pipe.reg .ex) ((ex.loaded value).retired (mem.retired cpu)).pc) := by
  obtain ⟨valid, atPc, _, _⟩ := decodeStage_keeps cfg cpu.gpr mem ex id
  rw [PipeReg.loaded_retired_pc]
  generalize stalls : (decodeStage cpu.gpr mem ex id).2 = stalled at front
  cases front with
  | stall empty idLatch fetch world =>
      rw [empty, guess_of_empty empty, idLatch, guess_decodeStage, fetch]
      refine ⟨nofun, fun live => ⟨decodeStage_waits decoded stalls, ?_⟩, fetches⟩
      rw [atPc]
      exact follows (valid.symm.trans live)
  | fetch read guessed exLatch idLatch fetch world =>
      rw [exLatch, idLatch, fetch, guess_decodeStage]
      refine ⟨fun live => ?_, fun _ => ⟨fetched_isDecoded .., ?_⟩, ?_⟩
      · rw [valid] at live
        exact decodeStage_ready live (decoded live) (follows live) stalls value
      · exact ((irDecode_fetched _ _ _ _).2.1).trans fetches
      · exact (predicted_fetched _ _ guessed).symm

section Step

variable {mem ex : PipeReg} {w₁ w₂ : World σ}

/-- A cycle moves the hart by the instruction that leaves the memory stage. -/
theorem Flow.cycle (flow : e.Flow cfg h a) (tame : vm.Tame) (quiet : e.world.sys.SameArch e₀.world.sys)
    (cycle : Cycle vm cfg e e' e₀ mem ex w₁ w₂) :
    ∃ b, e'.Flow cfg h b ∧ (mem.valid = false → b = a) ∧ (mem.valid = true → Performs h a mem.ir b) := by
  obtain ⟨sameMem, value, loaded⟩ := cycle.memory.loaded tame
  have same₁ := quiet.trans sameMem
  have same₂ := cycle.front.sameArch tame
  have valid : mem.valid = (e.pipe.reg .mem).valid := by
    rw [loaded]
    rfl
  have cpu : e.written.gpr = a.cpu.gpr := by rw [flow.cpu]
  have front := cycle.front
  rw [cpu] at front
  have follows : (e.pipe.reg .id).valid = true →
      (e.pipe.reg .id).ir.pc = guess cfg (e.pipe.reg .ex) (mem.retired a.cpu).pc := by
    rw [loaded]
    exact fun live => (flow.follows live).2 value
  have fetches : e.pipe.fetchPc = guess cfg (e.pipe.reg .id) (guess cfg (e.pipe.reg .ex) (mem.retired a.cpu).pc) := by
    rw [loaded]
    exact flow.fetch value
  obtain ⟨live, fetch⟩ := steer_follows cycle.execute follows fetches
  have after := front.flow (fun valid => by
    obtain ⟨wasValid, same, _⟩ := live valid
    rw [same]
    exact (flow.follows wasValid).1) (fun valid => by
    obtain ⟨_, same, atPc⟩ := live valid
    rw [same]
    exact atPc) fetch
  obtain ⟨exValid, _⟩ := cycle.execute.keeps cfg
  refine ⟨.save (mem.retired a.cpu) w₁.sys, ?_, ?_, ?_⟩
  · constructor
    · rw [same₂.hart, cycle.execute.hart, same₁.hart]
      exact flow.hart
    · rw [written_eq, cycle.wbLatch, cycle.cpu, ← flow.cpu]
      rfl
    · intro empty
      rw [cycle.memLatch] at empty
      rw [same₂.arch]
      cases cycle.execute with
      | bubble => rfl
      | execute => cases empty
    · intro live value'
      rw [cycle.memLatch] at live ⊢
      rw [same₂.arch]
      refine cycle.execute.performs (by rw [← exValid]; exact live) (same₁.hart.trans flow.hart) rfl ?_ value'
      change (e.pipe.reg .ex).ir.Awaits (mem.retired a.cpu)
      rw [loaded]
      exact flow.ready (by rw [← exValid]; exact live) value
    · rw [cycle.memLatch]
      exact fun live value' => (after value').1 live
    · rw [cycle.memLatch]
      exact fun live => ⟨((after value).2.1 live).1, fun value' => ((after value').2.1 live).2⟩
    · rw [cycle.memLatch]
      exact fun value' => (after value').2.2
  · intro empty
    rw [PipeReg.retired_of_empty empty, same₁.arch, ← flow.idle (by rw [← valid]; exact empty)]
  · intro live
    have performs := flow.performed (by rw [← valid]; exact live) value
    rw [same₁.arch, loaded]
    exact performs

end Step

end Inorder

end Sustemu
