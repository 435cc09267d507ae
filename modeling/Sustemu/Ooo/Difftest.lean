import Sustemu.Ooo.Refinement
import Sustemu.Ooo.StoreOrder
import Sustemu.Cpu.Reference

/-!
# Differential testing of the out-of-order engine

The reference executes each committed instruction once more, on registers of
its own and on the engine's memory. That memory lacks the stores that are still
in the store buffer, so the reference can fetch an old word or load an old
value; the check lets the latter pass only if a buffered store has the address
and the width of the load.
-/

set_option autoImplicit false

namespace Sustemu

open Lib Engine

/-! ## Completed instructions -/

/-- The type of an entry comes from its word, and a malformed word is a fault. -/
structure ROBEntry.Typed (entry : ROBEntry) : Prop where
  itype : entry.ir.itype = (irSelect entry.ir.raw).2.1.itype
  malformed : (irSelect entry.ir.raw).2.1 = .inv → entry.ir.fault = true

namespace OOOState

variable {o o' : OOOState}

/-- Completed entries are typed. -/
def Typed (o : OOOState) : Prop := ∀ i, (o.rob i).valid = true → (o.rob i).ready = true → (o.rob i).Typed

theorem Typed.same (typed : o.Typed) (rob : o'.rob = o.rob) : o'.Typed := by
  unfold Typed
  rw [rob]
  exact typed

theorem Typed.update (typed : o.Typed) {i : RobIdx} {entry : ROBEntry} (rob : o'.rob = setAt o.rob i entry)
    (new : entry.valid = true → entry.ready = true → entry.Typed) : o'.Typed := by
  intro j valid ready
  rw [rob] at valid ready ⊢
  by_cases here : j = i
  · rw [here, setAt_self] at valid ready ⊢
    exact new valid ready
  · rw [setAt_of_ne here] at valid ready ⊢
    exact typed j valid ready

theorem Typed.flushes (typed : o.Typed) {b : RobIdx} (flushes : o.Flushes b o') : o'.Typed := by
  intro i valid ready
  have older : o.pos i ≤ o.pos b := by
    by_contra newer
    rw [flushes.newer i (by omega)] at valid
    cases valid
  rw [flushes.older i older] at valid ready ⊢
  exact typed i valid ready

/-- An access in an LSU slot that has its address. -/
theorem Ok.computed_typed (ok : o.Ok) {s : Fin 2} (live : o.Live .lsu s) (computed : o.Computed s) :
    (o.slotEntry .lsu s).Typed := by
  obtain ⟨run, executor, same⟩ := computed.done
  have decoded := (ok.decoded _ (ok.inv.live_entry live).1).1
  have executed : irExecute ⟨0, 0, 0, 0, 0, 0⟩ (o.slotEntry .lsu s).ir Sys.init = some ((o.slotEntry .lsu s).ir, Sys.init) := by
    unfold irExecute
    rw [executor]
    simp only
    rw [same]
  constructor
  · rw [irExecute_itype executed]
    exact congrArg ExecFn.itype decoded.fn
  · intro malformed
    exact irExecute_inv executed (decoded.fn.trans malformed)

end OOOState

namespace Engine

variable {σ β : Type} {vm : VMem σ} {cfg : OooConfig β} {e e' : Engine σ β} {Rep : World σ → Flat → Prop} {f g : Flat}

theorem executed_typed (ok : e.ooo.Ok) {eu : EU} {s : Fin 2} (live : e.ooo.Live eu s) {perf : Perf} {ir : IRInst}
    {sys sys' : Sys} (run : irExecute perf (operands e.ooo (e.ooo.latch eu s)) sys = some (ir, sys')) (fault : Bool) :
    ({ e.ooo.slotEntry eu s with ir := { ir with fault := ir.fault || fault }, ready := true } : ROBEntry).Typed := by
  have decoded := (ok.decoded _ (ok.inv.live_entry live).1).1
  have source := e.ooo.operands_sameInst eu s
  have raw : ir.raw = (e.ooo.slotEntry eu s).ir.raw := (irExecute_sameInst run).1.raw.trans source.raw
  have fn : (operands e.ooo (e.ooo.latch eu s)).execFn = (irSelect (e.ooo.slotEntry eu s).ir.raw).2.1 :=
    source.execFn.trans decoded.fn
  constructor
  · change ir.itype = (irSelect ir.raw).2.1.itype
    rw [irExecute_itype run, fn, raw]
  · intro malformed
    change (irSelect ir.raw).2.1 = .inv at malformed
    rw [raw, ← fn] at malformed
    change (ir.fault || fault) = true
    rw [irExecute_inv run malformed]
    rfl

theorem BackStep.typed (step : e.BackStep vm cfg e') (ok : e.ooo.Ok) (typed : e.ooo.Typed) : e'.ooo.Typed := by
  cases step with
  | commit live ready ordered sound room stored checked =>
      rw [(commits_of_checked stored checked).ooo]
      exact typed.update e.ooo.afterCommit_frame.rob fun valid => nomatch valid
  | exec bpred fault unit live run completes faulted resolved =>
      exact typed.update completes.rob fun _ _ => executed_typed ok live run fault
  | redirect live run completes control wrong target =>
      have done := typed.update completes.rob fun _ _ => by
        have typed := executed_typed ok live run false
        simpa using typed
      exact (done.flushes (redirect_flushes ok live run completes).2).same rfl
  | address live first executor =>
      refine typed.update rfl fun _ ready => ?_
      cases (ok.inv.live_entry live).2.symm.trans ready
  | storeDone live computed store completes =>
      have before := ok.computed_typed live computed
      exact typed.update completes.rob fun _ _ => ⟨before.itype, before.malformed⟩
  | loadFault addressed outside completes =>
      have before := ok.computed_typed addressed.live addressed.computed
      exact typed.update completes.rob fun _ _ => ⟨before.itype, fun _ => rfl⟩
  | fill addressed device mapped read completes =>
      have before := ok.computed_typed addressed.live addressed.computed
      exact typed.update completes.rob fun _ _ => ⟨before.itype, before.malformed⟩
  | _ => exact typed.same rfl

theorem FrontStep.typed (step : e.FrontStep vm cfg e') (typed : e.ooo.Typed) : e'.ooo.Typed := by
  cases step with
  | rename valid inOrder alone room names renames =>
      exact (typed.update renames.rob fun _ ready => nomatch ready).same rfl
  | _ => exact typed.same rfl

/-! ## The reference -/

/-- The reference executes the word that the memory `g` holds at its program counter. -/
theorem difftestStep_executes (law : CoherentMemory vm Rep) (rep : Rep e.world g)
    (mapped : inDram e.difftestRef.pc = true) (inside : InLine e.difftestRef.pc 4)
    (stepped : e.difftestStep vm cfg = some e') : ∃ ir world,
    ir.ExecutedFrom e.difftestRef ((loadLE g.bytes e.difftestRef.pc.toNat 4).setWidth 32) ∧
    (ir.itype = .load → inDram ir.memAddr = true → InLine ir.memAddr ir.memWidth →
      ir.result = extend ir.memSign ir.memWidth (loadLE g.bytes ir.memAddr.toNat ir.memWidth)) ∧
    e' = { e with world := world, difftestRef := ⟨irWriteback ir e.difftestRef.gpr, ir.dnpc⟩ } := by
  simp only [difftestStep, Option.bind_eq_bind, Option.bind_eq_some_iff] at stepped
  obtain ⟨⟨raw, w⟩, read, ⟨x, sys⟩, run, done⟩ := stepped
  simp only at run done
  obtain ⟨_, _, found, _, rep₁, value⟩ := law.read 4 rep mapped
  cases found.symm.trans read
  rw [value inside] at run
  obtain ⟨fetched, atPc, sameRaw⟩ := irDecode_fetched e.cpu.gpr ((loadLE g.bytes e.difftestRef.pc.toNat 4).setWidth 32)
    e.difftestRef.pc cfg.stackIr
  change irExecute _ (IRInst.sourced (irDecode e.cpu.gpr ((loadLE g.bytes e.difftestRef.pc.toNat 4).setWidth 32)
    e.difftestRef.pc (e.difftestRef.pc + 4) cfg.stackIr) e.difftestRef.gpr) w.sys = some (x, sys) at run
  obtain ⟨same, rd⟩ := sourced_sameInst (irDecode e.cpu.gpr ((loadLE g.bytes e.difftestRef.pc.toNat 4).setWidth 32)
    e.difftestRef.pc (e.difftestRef.pc + 4) cfg.stackIr) e.difftestRef.gpr
  obtain ⟨decoded, reads⟩ := fetched.decoded.sourced e.difftestRef.gpr
  have executes : ∀ v, (x.itype ≠ .load → v = x.result) → ({ x with result := v } : IRInst).ExecutedFrom e.difftestRef
      ((loadLE g.bytes e.difftestRef.pc.toNat 4).setWidth 32) := by
    intro v kept
    refine ⟨_, x, _, _, sys, decoded, ?_, same.pc.trans atPc, same.raw.trans sameRaw, reads, run, v, rfl, kept⟩
    rw [rd, fetched.rd, same.raw]
  split at done
  · next load =>
      obtain ⟨⟨ir, w'⟩, accessed, last⟩ := Option.bind_eq_some_iff.mp done
      unfold irMemAccess at accessed
      rw [load] at accessed
      obtain ⟨⟨raw', w''⟩, read', pair⟩ := Option.map_eq_some_iff.mp accessed
      cases pair
      refine ⟨_, w', executes _ fun other => absurd load other, ?_, (Option.some.inj last).symm⟩
      intro _ cached inLine
      have rep₂ : Rep { w with sys := sys } g := law.sys sys rep₁ (irExecute_hartid run)
      obtain ⟨_, _, found', _, _, value'⟩ := law.read x.memWidth rep₂ cached
      cases found'.symm.trans read'
      change extend x.memSign x.memWidth _ = _
      rw [value' inLine]
  · next other =>
      obtain ⟨⟨ir, w'⟩, accessed, last⟩ := Option.bind_eq_some_iff.mp done
      cases accessed
      exact ⟨x, _, executes x.result fun _ => rfl, fun load => absurd load other, (Option.some.inj last).symm⟩

end Engine

/-! ## Agreement of one commit -/

theorem RegFile.set_set (regs : RegFile) (a : Reg) (first second : Word) :
    (regs.set a first).set a second = regs.set a second := by
  apply RegFile.ext
  intro b
  rw [RegFile.get_set, RegFile.get_set, RegFile.get_set]
  by_cases zero : b = 0
  · rw [if_pos zero, if_pos zero]
  · by_cases here : b = a
    · rw [if_pos here, if_pos here]
    · rw [if_neg zero, if_neg zero, if_neg zero, if_neg here, if_neg here, if_neg here]

theorem itype_invalid {fn : ExecFn} (kind : fn.itype = .invalid) : fn = .inv := by
  cases fn <;> first | rfl | cases kind

/-- The pc and the register write of a retired instruction. -/
def Retired.result (r : Retired) : Word × Option (Reg × Word) := (r.pc, r.write)

/-- What the reference needs to find when `entry` commits, if the functional engine executes `ir` there: memory holds
the word of the instruction, and for a load of memory the value, unless a pending store has the load's address and width. -/
structure Accords (ir : IRInst) (mem : ByteMem) (pending : List StoreData) (entry : ROBEntry) : Prop where
  raw : entry.ir.raw = ir.raw
  code : inDram ir.pc = true ∧ InLine ir.pc 4 ∧ (loadLE mem ir.pc.toNat 4).setWidth 32 = ir.raw
  load : entry.ir.itype = .load → entry.dest.isSome = true → mmioBase ≤ entry.ir.memAddr ∨
    (inDram ir.memAddr = true ∧ InLine ir.memAddr ir.memWidth ∧
      ir.result = extend ir.memSign ir.memWidth (loadLE mem ir.memAddr.toNat ir.memWidth)) ∨
    ∃ store ∈ pending, store.1 = entry.ir.memAddr ∧ store.2.1 = entry.ir.memWidth

namespace Engine

variable {σ β : Type} {vm : VMem σ} {cfg : OooConfig β} {e e' : Engine σ β} {Rep : World σ → Flat → Prop} {f g : Flat}

theorem sbufCovers_iff {o : OOOState} (buffered : o.Buffered) (ir : IRInst) : sbufCovers o ir = true ↔
    ∃ store ∈ o.buffered.map StoreBufEntry.store, store.1 = ir.memAddr ∧ store.2.1 = ir.memWidth := by
  unfold sbufCovers OOOState.buffered
  simp only [List.any_eq_true, Bool.and_eq_true, beq_iff_eq, List.mem_map, exists_exists_and_eq_and]
  constructor
  · rintro ⟨i, member, ⟨_, addr⟩, width⟩
    exact ⟨i, member, addr, width⟩
  · rintro ⟨i, member, addr, width⟩
    have valid := (buffered.entries _ (List.mem_map.mpr ⟨i, member, rfl⟩)).1
    exact ⟨i, member, ⟨valid, addr⟩, width⟩

theorem sbufCovers_commitRename (o : OOOState) (entry : ROBEntry) (ir : IRInst) :
    sbufCovers (o.commitRename entry) ir = sbufCovers o ir := by
  unfold OOOState.commitRename
  cases entry.pending with
  | none => rfl
  | some r => rfl

/-- A reference that is in the functional state before an instruction stays silent at its commit and is in the
functional state after it. -/
theorem difftestCheck_silent (law : CoherentMemory vm Rep) (rep : Rep e.world g) {ir : IRInst} {entry : ROBEntry}
    {pending : List StoreData} (executed : ir.ExecutedFrom e.difftestRef ir.raw) (gpr : e.cpu.gpr = irWriteback ir e.difftestRef.gpr)
    (dest : entry.dest = ir.rd.filter (· ≠ 0)) (typed : entry.Typed) (sound : entry.ir.fault = false)
    (accords : Accords ir g.bytes pending entry)
    (covers : entry.ir.itype = .load → (∃ store ∈ pending, store.1 = entry.ir.memAddr ∧ store.2.1 = entry.ir.memWidth) →
      sbufCovers e.ooo entry.ir = true)
    (checked : e.difftestCheck vm cfg entry = some e') : e'.cpu = e.cpu ∧ e'.difftestRef.gpr = e.cpu.gpr ∧
      (¬ ir.execFn.Traps → e'.difftestRef.pc = ir.dnpc) ∧ e'.log = e.log := by
  obtain ⟨atPc, _, kind⟩ := executed.fields
  obtain ⟨mapped, inLine, word⟩ := accords.code
  rw [atPc] at mapped inLine word
  simp only [difftestCheck, Option.bind_eq_bind, Option.bind_eq_some_iff] at checked
  obtain ⟨e₁, stepped, rest⟩ := checked
  obtain ⟨x, world, executedX, value, rfl⟩ := difftestStep_executes law rep mapped inLine stepped
  rw [word] at executedX
  have again := executed.again executedX
  have itype : entry.ir.itype = ir.itype := by
    rw [typed.itype, accords.raw, kind]
  have next : ¬ ir.execFn.Traps → x.dnpc = ir.dnpc := again.dnpc
  have destX : x.rd.filter (· ≠ 0) = entry.dest := by
    rw [again.rd, dest]
  -- the destination is copied from the engine
  have synced : ∀ a, entry.dest = some a → (irWriteback x e.difftestRef.gpr).set a (e.cpu.gpr.get a) = e.cpu.gpr := by
    intro a named
    obtain ⟨writeX, _⟩ := irWriteback_dest (destX.trans named) e.difftestRef.gpr
    obtain ⟨write, nonzero⟩ := irWriteback_dest (dest.symm.trans named) e.difftestRef.gpr
    rw [writeX, gpr, write, RegFile.get_set_self _ _ nonzero, RegFile.set_set]
  have blank : entry.dest = none → irWriteback x e.difftestRef.gpr = e.cpu.gpr := by
    intro none
    rw [irWriteback_blank (destX.trans none), gpr, irWriteback_blank (dest.symm.trans none)]
  split at rest
  · next a _ named =>
      cases rest
      exact ⟨rfl, synced a named, next, rfl⟩
  · next _ none =>
      cases rest
      exact ⟨rfl, blank none, next, rfl⟩
  · next _ compared =>
      split at rest
      · next a found =>
          split at found
          · next load =>
              split at rest
              · cases rest
                exact ⟨rfl, synced a found, next, rfl⟩
              · next below =>
                  split at rest
                  · next loud =>
                      exfalso
                      obtain ⟨differs, uncovered⟩ := loud
                      rcases accords.load load (by rw [found]; rfl) with device | ⟨cached, contained, held⟩ | covered
                      · exact below device
                      · obtain ⟨addr, width, sign⟩ := again.load (itype.symm.trans load)
                        have read := value (again.itype.trans (itype.symm.trans load)) (by rw [addr]; exact cached)
                          (by rw [addr, width]; exact contained)
                        rw [addr, width, sign, ← held] at read
                        obtain ⟨writeX, nonzero⟩ := irWriteback_dest (destX.trans found) e.difftestRef.gpr
                        obtain ⟨write, _⟩ := irWriteback_dest (dest.symm.trans found) e.difftestRef.gpr
                        apply differs
                        simp only
                        rw [gpr, write, writeX, RegFile.get_set_self _ _ nonzero, RegFile.get_set_self _ _ nonzero, read]
                      · rw [covers load covered] at uncovered
                        cases uncovered
                  · cases rest
                    exact ⟨rfl, synced a found, next, rfl⟩
          · cases found
      · next found =>
          have same : irWriteback x e.difftestRef.gpr = e.cpu.gpr := by
            split at found
            · exact blank found
            · next noLoad =>
                cases named : entry.dest with
                | none => exact blank named
                | some a =>
                    obtain ⟨writeX, _⟩ := irWriteback_dest (destX.trans named) e.difftestRef.gpr
                    obtain ⟨write, _⟩ := irWriteback_dest (dest.symm.trans named) e.difftestRef.gpr
                    have plain : ir.itype.Plain = true := by
                      rw [← itype]
                      cases type : entry.ir.itype <;> rw [type] at compared <;> first | rfl | (cases compared; done) | skip
                      have malformed := typed.malformed (itype_invalid (typed.itype.symm.trans type))
                      rw [sound] at malformed
                      cases malformed
                    rw [writeX, gpr, write, again.result plain (by rw [← itype]; exact noLoad)]
                    intro none
                    rw [dest, none] at named
                    cases named
          split at rest
          · cases rest
            exact ⟨rfl, same, next, rfl⟩
          · next loud =>
              exfalso
              apply loud
              simp only
              rw [same, List.all_eq_true]
              intro i _
              exact beq_self_eq_true _

end Engine

/-! ## Runs -/

/-- The committed cacheable stores that have not been drained. -/
def pendingStores {σ : Type} (log : List (Event σ)) : List StoreData :=
  ((commits log).filterMap ROBEntry.cacheableStore).drop (drains log).length

theorem StoresKept.pending {σ : Type} {o : OOOState} {log : List (Event σ)} (kept : StoresKept o log) :
    pendingStores log = o.buffered.map StoreBufEntry.store := by
  unfold pendingStores
  rw [← kept.order, List.map_append, List.drop_left' (by rw [List.length_map])]

namespace Engine

variable {σ β : Type} {vm : VMem σ} {cfg : OooConfig β} {e e' : Engine σ β} {Rep : World σ → Flat → Prop} {f g : Flat}
  {N : Nat} {t : Execution vm N}

/-- Every commit of the log has the pc, destination and value of the functional run, and accords with the memory of
its time. -/
def CommitsAccord (t : Execution vm N) (f : Flat) (log : List (Event σ)) : Prop :=
  ∀ before entry value after, log = before ++ .commit entry value :: after → (commits before).length < N ∧
    (entry.retired value).result = (t.inst (commits before).length).retired.result ∧
    Accords (t.inst (commits before).length) (f.drained (drains before)).bytes (pendingStores before) entry

theorem CommitsAccord.of_append {log extra : List (Event σ)} (accord : CommitsAccord t f (log ++ extra)) :
    CommitsAccord t f log := by
  intro before entry value after split
  apply accord before entry value (after ++ extra)
  rw [split, List.append_assoc, List.cons_append]

/-- The registers and the reference are those of the functional run. -/
structure InStep (t : Execution vm N) (e : Engine σ β) : Prop where
  active : e.difftestActive = true
  gpr : e.cpu.gpr = (t.state (commits e.log).length).cpu.gpr
  ref : e.difftestRef.gpr = (t.state (commits e.log).length).cpu.gpr
  pc : (∀ m, (commits e.log).length = m + 1 → ¬ (t.inst m).execFn.Traps) →
    e.difftestRef.pc = (t.state (commits e.log).length).cpu.pc
  silent : ∀ entry, Event.mismatch entry ∉ e.log

theorem InStep.keep (inStep : e.InStep t) (active : e'.difftestActive = e.difftestActive) (cpu : e'.cpu = e.cpu)
    (ref : e'.difftestRef = e.difftestRef) {extra : List (Event σ)} (log : e'.log = e.log ++ extra)
    (quiet : ∀ event ∈ extra, (∀ entry value, event ≠ .commit entry value) ∧ ∀ entry, event ≠ .mismatch entry) :
    e'.InStep t := by
  have committed : commits e'.log = commits e.log := by
    rw [log, commits_quiet _ fun event member => (quiet event member).1]
  refine ⟨active.trans inStep.active, ?_, ?_, ?_, ?_⟩
  · rw [cpu, committed]
    exact inStep.gpr
  · rw [ref, committed]
    exact inStep.ref
  · rw [ref, committed]
    exact inStep.pc
  · intro entry member
    rw [log] at member
    rcases List.mem_append.mp member with old | new
    · exact inStep.silent entry old
    · exact (quiet _ new).2 entry rfl

/-- The registers once the head has committed. -/
theorem committed_gpr (ok : e.ooo.Ok) (live : e.ooo.robCount ≠ 0) {ir : IRInst}
    (result : ((e.ooo.rob e.ooo.robHead).retired (commitValue e.ooo (e.ooo.rob e.ooo.robHead))).result = ir.retired.result) :
    (e.ooo.rob e.ooo.robHead).dest = ir.rd.filter (· ≠ 0) ∧ e.committed.cpu.gpr = irWriteback ir e.cpu.gpr := by
  have valid := ok.inv.renamed.head_valid live
  have writes : (e.ooo.rob e.ooo.robHead).dest.map (fun rd => (rd, commitValue e.ooo (e.ooo.rob e.ooo.robHead))) =
      (ir.rd.filter (· ≠ 0)).map fun rd => (rd, ir.result) := congrArg Prod.snd result
  unfold committed commitRegs
  simp only [emit]
  cases named : (e.ooo.rob e.ooo.robHead).dest with
  | none =>
      rw [named] at writes
      have blank : ir.rd.filter (· ≠ 0) = none := (Option.map_eq_none_iff.mp writes.symm)
      refine ⟨blank.symm, ?_⟩
      rw [irWriteback_blank blank]
      cases pending : (e.ooo.rob e.ooo.robHead).pending with
      | none => rfl
      | some r =>
          rw [(OOOState.pending_dest pending).1] at named
          cases named
  | some a =>
      obtain ⟨r, pending, physRd⟩ := ok.inv.renamed.pending_of_dest valid (by rw [named]; rfl)
      have target := (OOOState.pending_dest pending).1.symm.trans named
      rw [named] at writes
      obtain ⟨b, dest, same⟩ := Option.map_eq_some_iff.mp writes.symm
      have value : ir.result = commitValue e.ooo (e.ooo.rob e.ooo.robHead) := congrArg Prod.snd same
      have here : b = a := congrArg Prod.fst same
      rw [here] at dest
      refine ⟨dest.symm, ?_⟩
      rw [(irWriteback_dest dest _).1, pending, value, commitValue, physRd]
      simp only
      rw [Option.some.inj target]

/-- What a committed store leaves alone. -/
theorem commitStore_same {entry : ROBEntry} {e₁ : Engine σ β} (stored : e.commitStore vm entry = some e₁) :
    e₁.cpu = e.cpu ∧ e₁.difftestRef = e.difftestRef ∧ e₁.difftestActive = e.difftestActive ∧ e₁.log = e.log ∧
      e₁.ooo.rob = e.ooo.rob ∧ e₁.ooo.robHead = e.ooo.robHead ∧ e₁.ooo.prf = e.ooo.prf ∧
      (entry.ir.itype = .load → e₁ = e) := by
  rcases commitStore_cases stored with ⟨store, _, rfl⟩ | ⟨store, _, _, _, rfl⟩ | ⟨_, rfl⟩
  · exact ⟨rfl, rfl, rfl, rfl, rfl, rfl, rfl, fun load => nomatch store.symm.trans load⟩
  · exact ⟨rfl, rfl, rfl, rfl, rfl, rfl, rfl, fun load => nomatch store.symm.trans load⟩
  · exact ⟨rfl, rfl, rfl, rfl, rfl, rfl, rfl, fun _ => rfl⟩

/-- A commit keeps the reference in step. -/
theorem InStep.commit (law : CoherentMemory vm Rep) (straight : ∀ n, n + 1 < N → ¬ (t.inst n).execFn.Traps)
    (inStep : e.InStep t) (ok : e.ooo.Ok) (typed : e.ooo.Typed) (kept : StoresKept e.ooo e.log)
    (live : e.ooo.robCount ≠ 0) (ready : (e.ooo.rob e.ooo.robHead).ready = true)
    (sound : (e.ooo.rob e.ooo.robHead).ir.fault = false) {e₁ e₂ : Engine σ β}
    (stored : e.commitStore vm (e.ooo.rob e.ooo.robHead) = some e₁) (rep : Rep e₁.world (f.drained (drains e.log)))
    (checked : (if e₁.difftestActive then e₁.committed.difftestCheck vm cfg (e.ooo.rob e.ooo.robHead)
      else some e₁.committed) = some e₂)
    (accord : CommitsAccord t f e₂.retire.log) : e₂.retire.InStep t := by
  obtain ⟨extra, log, _⟩ := (commits_of_checked stored checked).log
  have activeAfter := (commits_of_checked stored checked).active
  rw [log] at accord
  obtain ⟨inside, result, accords⟩ := accord _ _ _ _ rfl
  obtain ⟨cpu, ref, active, sameLog, rob, head, prf, loads⟩ := commitStore_same stored
  have valid := ok.inv.renamed.head_valid live
  have step := t.step _ inside
  obtain ⟨executed, next⟩ := execOnce_executedFrom step
  obtain ⟨dest, regs⟩ := committed_gpr ok live result
  have refState : e.difftestRef = (t.state (commits e.log).length).cpu := by
    have atPc := inStep.pc fun m previous => straight m (by omega)
    have gpr := inStep.ref
    cases whole : e.difftestRef
    rw [whole] at atPc gpr
    simp only at atPc gpr
    rw [atPc, gpr]
  have committedGpr : e₁.committed.cpu.gpr = e.committed.cpu.gpr := by
    unfold committed commitRegs
    simp only [emit]
    rw [rob, head, prf, cpu]
  have committedLog : e₁.committed.log = e.log ++ [.commit (e.ooo.rob e.ooo.robHead) (commitValue e.ooo (e.ooo.rob e.ooo.robHead))] := by
    unfold committed
    simp only [emit, commitRegs, commitValue]
    rw [sameLog, rob, head, prf]
  rw [active, inStep.active, if_pos rfl] at checked
  have executedRef : (t.inst (commits e.log).length).ExecutedFrom e₁.committed.difftestRef
      (t.inst (commits e.log).length).raw := by
    change (t.inst (commits e.log).length).ExecutedFrom e₁.difftestRef _
    rw [ref, refState]
    exact executed
  have silent := difftestCheck_silent (e := e₁.committed) law rep executedRef (by
      change _ = irWriteback _ e₁.difftestRef.gpr
      rw [committedGpr, regs, ref, inStep.ref, inStep.gpr])
    dest (typed _ valid ready) sound accords (by
      intro load covered
      have same := loads load
      subst same
      rw [kept.pending] at covered
      exact (sbufCovers_commitRename ..).trans ((sbufCovers_iff kept.buffered _).mpr covered)) checked
  obtain ⟨cpu₂, ref₂, pc₂, log₂⟩ := silent
  have committedAll : commits e₂.retire.log = commits e.log ++ [e.ooo.rob e.ooo.robHead] := by
    change commits e₂.log = _
    rw [log₂, committedLog, commits_append]
    rfl
  have state : (t.state ((commits e.log).length + 1)).cpu = ⟨irWriteback (t.inst (commits e.log).length)
    (t.state (commits e.log).length).cpu.gpr, (t.inst (commits e.log).length).dnpc⟩ := next
  have gprs : e₂.cpu.gpr = (t.state ((commits e.log).length + 1)).cpu.gpr := by
    rw [cpu₂, committedGpr, regs, inStep.gpr, state]
  refine ⟨?_, ?_, ?_, ?_, ?_⟩
  · exact activeAfter.trans inStep.active
  · rw [committedAll, List.length_append]
    exact gprs
  · rw [committedAll, List.length_append]
    change e₂.difftestRef.gpr = _
    rw [ref₂, ← cpu₂]
    exact gprs
  · intro last
    rw [committedAll, List.length_append] at last ⊢
    change e₂.difftestRef.pc = (t.state ((commits e.log).length + 1)).cpu.pc
    rw [pc₂ (last _ rfl), state]
  · intro entry member
    change _ ∈ e₂.log at member
    rw [log₂, committedLog] at member
    rcases List.mem_append.mp member with old | new
    · exact inStep.silent entry old
    · cases List.mem_singleton.mp new

/-- What a run with differential testing keeps. -/
structure Checked (Rep : World σ → Flat → Prop) (t : Execution vm N) (f : Flat) (e : Engine σ β) : Prop where
  loads : e.LoadsExact Rep f
  typed : e.ooo.Typed
  inStep : (∀ entry ∈ commits e.log, entry.ir.StoresPlainly) → CommitsAccord t f e.log → e.InStep t

theorem BackStep.checked (law : CoherentMemory vm Rep) (straight : ∀ n, n + 1 < N → ¬ (t.inst n).execFn.Traps)
    (step : e.BackStep vm cfg e') (ok : e.ooo.Ok) (checked : e.Checked Rep t f) : e'.Checked Rep t f := by
  refine ⟨step.loadsExact law ok checked.loads, step.typed ok checked.typed, ?_⟩
  intro plain accord
  obtain ⟨extra, log⟩ := step.log_extends
  have plainBefore : ∀ entry ∈ commits e.log, entry.ir.StoresPlainly := fun entry member =>
    plain entry (log ▸ commits_mem_append extra member)
  have before := checked.inStep plainBefore (log ▸ accord).of_append
  cases step with
  | note quiet =>
      refine before.keep rfl rfl rfl rfl ?_
      intro event member
      obtain ⟨_, _, rfl⟩ := quiet event member
      exact ⟨by simp, by simp⟩
  | drain waiting written => exact before.keep rfl rfl rfl rfl (by simp)
  | commit live ready ordered sound room stored compared =>
      have rep := (checked.loads.memory plainBefore).1
      have head : (e.ooo.rob e.ooo.robHead).ir.StoresPlainly := by
        obtain ⟨rest, whole, _⟩ := (commits_of_checked stored compared).log
        apply plain
        rw [whole, commits_append]
        exact List.mem_append_right _ List.mem_cons_self
      exact before.commit law straight ok checked.typed checked.loads.kept live ready sound stored
        (commitStore_represents law rep head stored) compared accord
  | fill addressed device mapped read completes => exact before.keep rfl rfl rfl rfl (by simp)
  | _ => exact before.keep rfl rfl rfl (List.append_nil _).symm (by simp)

theorem FrontStep.checked (law : CoherentMemory vm Rep) (step : e.FrontStep vm cfg e') (ok : e.ooo.Ok)
    (checked : e.Checked Rep t f) : e'.Checked Rep t f := by
  refine ⟨step.loadsExact law ok checked.loads, step.typed checked.typed, ?_⟩
  intro plain accord
  obtain ⟨extra, log⟩ := step.log_extends
  have before := checked.inStep (fun entry member => plain entry (log ▸ commits_mem_append extra member))
    (log ▸ accord).of_append
  cases step with
  | rename valid inOrder alone room names renames =>
      refine before.keep rfl rfl rfl rfl ?_
      split <;> simp
  | _ => exact before.keep rfl rfl rfl (List.append_nil _).symm (by simp)

theorem length_retirements (log : List (Event σ)) : (retirements log).length = (commits log).length := by
  induction log with
  | nil => rfl
  | cons event rest ih =>
      cases event with
      | commit entry value => exact congrArg Nat.succ ih
      | pop | fill | drain | logLine | mismatch => exact ih

/-- The commit at a position of the log is the instruction of that position. -/
theorem retirement_at {log before after : List (Event σ)} {entry : ROBEntry} {value : Word} {expected : Nat → Retired}
    (same : (retirements log).map Retired.result = (List.range (commits log).length).map fun n => (expected n).result)
    (split : log = before ++ .commit entry value :: after) : (commits before).length < (commits log).length ∧
      (entry.retired value).result = (expected (commits before).length).result := by
  have inside : (commits before).length < (commits log).length := by
    rw [split, commits_append, List.length_append]
    exact Nat.lt_add_of_pos_right (Nat.succ_pos _)
  refine ⟨inside, ?_⟩
  have found := congrArg (fun results => results[(commits before).length]?) same
  simp only [List.getElem?_map, List.getElem?_range inside, Option.map_some] at found
  rw [split, retirements_append, List.getElem?_append_right (by rw [length_retirements]), length_retirements, Nat.sub_self] at found
  exact Option.some.inj found

/-- In every single-core run that commits the pcs, destinations and values of the functional run, differential testing
reports nothing and leaves the registers alone, provided every commit accords with the memory of its time, stores stay
inside their lines or go to devices, and no trap or return is committed before the last instruction. -/
theorem difftest_silent {δ : Type} (devices : Devices δ) (cfg : OooConfig β) (enabled : cfg.difftestEn = true)
    (single : cfg.numCores = 1) (cpu : CPUState) (sys : Sys) (hart : sys.hartid = 0) (pmem : ByteMem) (dev : δ) (bpred : β)
    (k : Nat) (e : Engine (MemState δ) β)
    (done : run (hierarchy ⟨1, prefetchHint, devices⟩) cfg k
      (Engine.init cfg cpu ⟨sys, MemState.init pmem dev⟩ bpred) = some e)
    (t : Execution (hierarchy ⟨1, prefetchHint, devices⟩) (commits e.log).length)
    (start : t.state 0 = ⟨cpu, ⟨sys, MemState.init pmem dev⟩⟩)
    (same : (retirements e.log).map Retired.result =
      (List.range (commits e.log).length).map fun n => (t.inst n).retired.result)
    (plain : ∀ entry ∈ commits e.log, entry.ir.StoresPlainly)
    (straight : ∀ n, n + 1 < (commits e.log).length → ¬ (t.inst n).execFn.Traps)
    (accord : ∀ before entry value after, e.log = before ++ .commit entry value :: after →
      Accords (t.inst (commits before).length) ((⟨pmem, ∅⟩ : Flat).drained (drains before)).bytes (pendingStores before)
        entry) :
    (∀ entry, Event.mismatch entry ∉ e.log) ∧ e.cpu.gpr = (t.state (commits e.log).length).cpu.gpr := by
  have law : CoherentMemory (hierarchy ⟨1, prefetchHint, devices⟩)
      fun w f => Represents ⟨1, prefetchHint, devices⟩ f w := hierarchy_coherent rfl
  have rep : Represents ⟨1, prefetchHint, devices⟩ ⟨pmem, ∅⟩ ⟨sys, MemState.init pmem dev⟩ :=
    ⟨init_represents _ pmem dev, fun _ => hart⟩
  have initial : (Engine.init cfg cpu ⟨sys, MemState.init pmem dev⟩ bpred).Checked
      (fun w f => Represents ⟨1, prefetchHint, devices⟩ f w) t ⟨pmem, ∅⟩ := by
    refine ⟨init_loadsExact cfg cpu rep bpred, fun _ valid => absurd valid Bool.false_ne_true, ?_⟩
    intro _ _
    refine ⟨?_, ?_, ?_, fun _ => ?_, fun _ mismatch => absurd mismatch List.not_mem_nil⟩
    · simp [Engine.init, enabled, single]
    · exact (congrArg (fun m : Machine _ => m.cpu.gpr) start).symm
    · exact (congrArg (fun m : Machine _ => m.cpu.gpr) start).symm
    · exact (congrArg (fun m : Machine _ => m.cpu.pc) start).symm
  have reached := (run_keeps (P := fun e => e.Checked (fun w f => Represents ⟨1, prefetchHint, devices⟩ f w) t ⟨pmem, ∅⟩)
    (fun _ _ ok holds step => step.checked law straight ok holds) (fun _ _ ok holds step => step.checked law ok holds)
    (oooInit_ok cpu) (oooInit_tidy cpu) initial done).2.2
  have inStep := reached.inStep plain fun before entry value after split => by
    obtain ⟨inside, result⟩ := retirement_at same split
    exact ⟨inside, result, accord before entry value after split⟩
  exact ⟨inStep.silent, inStep.gpr⟩

end Engine

/-- One core with differential testing. -/
def OooConfig.tested : OooConfig Unit := { OooConfig.solo with difftestEn := true }

/-- Cycles of the machine at reset, with differential testing. -/
def testedRun (words : List Raw) (k : Nat) : Option (Engine (MemState Unit) Unit) :=
  Engine.run (hierarchy (.plain 1)) .tested k
    (Engine.init .tested ⟨.empty, mbase⟩ ⟨Sys.init, MemState.init (image words) ()⟩ ())

/-- Every commit of a log passes a check, given what was logged before it. -/
def commitsPass {σ : Type} (check : List (Event σ) → ROBEntry → Bool) (before : List (Event σ)) : List (Event σ) → Bool
  | [] => true
  | .commit entry value :: rest => check before entry && commitsPass check (before ++ [.commit entry value]) rest
  | event :: rest => commitsPass check (before ++ [event]) rest

theorem commitsPass_at {σ : Type} {check : List (Event σ) → ROBEntry → Bool} {seen before after : List (Event σ)}
    {entry : ROBEntry} {value : Word} (passes : commitsPass check seen (before ++ .commit entry value :: after) = true) :
    check (seen ++ before) entry = true := by
  induction before generalizing seen with
  | nil =>
      rw [List.append_nil]
      exact (Bool.and_eq_true_iff.mp passes).1
  | cons event rest ih =>
      have later : commitsPass check (seen ++ [event]) (rest ++ .commit entry value :: after) = true := by
        cases event with
        | commit entry' value' => exact (Bool.and_eq_true_iff.mp passes).2
        | pop | fill | drain | logLine | mismatch => exact passes
      have passed := ih later
      rwa [List.append_assoc] at passed

instance (ir : IRInst) (mem : ByteMem) (pending : List StoreData) (entry : ROBEntry) :
    Decidable (Accords ir mem pending entry) :=
  decidable_of_iff (entry.ir.raw = ir.raw ∧
    (inDram ir.pc = true ∧ InLine ir.pc 4 ∧ (loadLE mem ir.pc.toNat 4).setWidth 32 = ir.raw) ∧
    (entry.ir.itype = .load → entry.dest.isSome = true → mmioBase ≤ entry.ir.memAddr ∨
      (inDram ir.memAddr = true ∧ InLine ir.memAddr ir.memWidth ∧
        ir.result = extend ir.memSign ir.memWidth (loadLE mem ir.memAddr.toNat ir.memWidth)) ∨
      ∃ store ∈ pending, store.1 = entry.ir.memAddr ∧ store.2.1 = entry.ir.memWidth))
    ⟨fun all => ⟨all.1, all.2.1, all.2.2⟩, fun accords => ⟨accords.raw, accords.code, accords.load⟩⟩

/-- Eight `nop`s, then `auipc x5, 0`, `lw x8, 0x40(x5)`, `addi x6, x0, 1`, `sw x6, 0x40(x5)` and `lw x7, 0x40(x5)`. -/
def bufferedLoadProgram : List Raw :=
  List.replicate 8 0x00000013 ++ [0x00000297, 0x0402a403, 0x00100313, 0x0462a023, 0x0402a383] ++
    List.replicate 51 0x00000013

/-- The store is still buffered when the load commits, and drains afterwards. The reference loads the old word, and the
check takes the engine's. -/
theorem Engine.difftest_silent_buffered : ∃ e insts m, testedRun bufferedLoadProgram 20 = some e ∧
    execMany (hierarchy (.plain 1)) (fun _ => .zero) 15
      ⟨⟨.empty, mbase⟩, ⟨Sys.init, MemState.init (image bufferedLoadProgram) ()⟩⟩ = some (insts, m) ∧
    (commits e.log).length = 15 ∧ (drains e.log).length = 1 ∧ m.cpu.gpr.get 7 = 1 ∧ m.cpu.gpr.get 8 = 0x13 ∧
      (∀ entry, Event.mismatch entry ∉ e.log) ∧ e.cpu.gpr = m.cpu.gpr := by
  have reached : (testedRun bufferedLoadProgram 20).any (fun e =>
      (execMany (hierarchy (.plain 1)) (fun _ => .zero) 15
        ⟨⟨.empty, mbase⟩, ⟨Sys.init, MemState.init (image bufferedLoadProgram) ()⟩⟩).any fun (insts, m) =>
          (decide ((commits e.log).length = 15) && decide ((drains e.log).length = 1)) &&
          (m.cpu.gpr.get 7 == 1 && m.cpu.gpr.get 8 == 0x13) &&
          decide ((retirements e.log).map Retired.result = insts.map fun ir => ir.retired.result) &&
          (commits e.log).all (fun entry => decide entry.ir.StoresPlainly) &&
          insts.all (fun ir => decide ¬ ir.execFn.Traps) &&
          commitsPass (fun before entry => (insts[(commits before).length]?).any fun ir => decide (Accords ir
            ((⟨image bufferedLoadProgram, ∅⟩ : Flat).drained (drains before)).bytes (pendingStores before) entry))
            [] e.log) = true := by
    decide +kernel
  obtain ⟨e, done, rest⟩ := (Option.any_eq_true _ _).mp reached
  obtain ⟨⟨insts, m⟩, functional, holds⟩ := (Option.any_eq_true _ _).mp rest
  simp only [Bool.and_eq_true, decide_eq_true_eq, beq_iff_eq] at holds
  obtain ⟨⟨⟨⟨⟨⟨length, one⟩, seven, eight⟩, same⟩, plain⟩, straight⟩, accords⟩ := holds
  refine ⟨e, insts, m, done, functional, length, one, seven, eight, ?_⟩
  rw [← length] at functional
  obtain ⟨t, start, last, listed⟩ := Execution.of_execMany functional
  have inst : ∀ n, n < (commits e.log).length → insts[n]? = some (t.inst n) := by
    intro n inside
    rw [listed, List.getElem?_map, List.getElem?_range inside]
    rfl
  rw [← last]
  refine Engine.difftest_silent Devices.none .tested rfl rfl ⟨.empty, mbase⟩ Sys.init rfl (image bufferedLoadProgram) () () 20 e
    done t start ?_ ?_ ?_ ?_
  · rw [same, listed, List.map_map]
    rfl
  · exact fun entry member => of_decide_eq_true (List.all_eq_true.mp plain entry member)
  · intro n inside
    exact of_decide_eq_true (List.all_eq_true.mp straight _ (List.mem_of_getElem? (inst n (by omega))))
  · intro before entry value after split
    have inside : (commits before).length < (commits e.log).length := by
      rw [split, commits_append, List.length_append]
      exact Nat.lt_add_of_pos_right (Nat.succ_pos _)
    rw [split] at accords
    have passed := commitsPass_at accords
    rw [List.nil_append, inst _ inside] at passed
    exact of_decide_eq_true passed

/-- Eight `nop`s, then `auipc x5, 0`, `lw x8, 0x40(x5)`, `addi x6, x0, 1`, `sd x6, 0x40(x5)` and `lwu x7, 0x40(x5)`. -/
def narrowLoadProgram : List Raw :=
  List.replicate 8 0x00000013 ++ [0x00000297, 0x0402a403, 0x00100313, 0x0462b023, 0x0402e383] ++
    List.replicate 51 0x00000013

/-- The store and the narrower load commit in one cycle with the results of the functional engine. The reference
loads the old word, the store that is still buffered has another width, and `x7` is overwritten. -/
theorem difftest_false_alarm : ∃ e insts m, testedRun narrowLoadProgram 19 = some e ∧
    execMany (hierarchy (.plain 1)) (fun _ => .zero) 13
      ⟨⟨.empty, mbase⟩, ⟨Sys.init, MemState.init (image narrowLoadProgram) ()⟩⟩ = some (insts, m) ∧
    retirements e.log = insts.map IRInst.retired ∧ (∃ entry, Event.mismatch entry ∈ e.log ∧ entry.ir.pc = 0x80000030) ∧
      m.cpu.gpr.get 7 = 1 ∧ e.cpu.gpr.get 7 = 0x13 := by
  have reached : (testedRun narrowLoadProgram 19).any (fun e =>
      (execMany (hierarchy (.plain 1)) (fun _ => .zero) 13
        ⟨⟨.empty, mbase⟩, ⟨Sys.init, MemState.init (image narrowLoadProgram) ()⟩⟩).any fun (insts, m) =>
          decide (retirements e.log = insts.map IRInst.retired) && (e.log.any (fun event => match event with
            | .mismatch entry => entry.ir.pc == 0x80000030
            | _ => false) && (m.cpu.gpr.get 7 == 1 && e.cpu.gpr.get 7 == 0x13))) = true := by
    decide +kernel
  obtain ⟨e, done, rest⟩ := (Option.any_eq_true _ _).mp reached
  obtain ⟨⟨insts, m⟩, functional, holds⟩ := (Option.any_eq_true _ _).mp rest
  simp only [Bool.and_eq_true, decide_eq_true_eq, beq_iff_eq] at holds
  obtain ⟨retired, loud, expected, found⟩ := holds
  obtain ⟨event, member, mismatch⟩ := List.any_eq_true.mp loud
  refine ⟨e, insts, m, done, functional, retired, ?_, expected, found⟩
  cases event with
  | mismatch entry => exact ⟨entry, member, by simpa using mismatch⟩
  | pop | fill | commit | drain | logLine => cases mismatch

end Sustemu
