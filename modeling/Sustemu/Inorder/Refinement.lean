import Sustemu.Inorder.Memory
import Sustemu.Cpu.Programs

/-!
# The pipeline refines the functional engine

A functional run is given as a trace. The pipeline is at position `n` of the
trace when the first `n` instructions have left the memory stage. What it needs
of memory at that position is collected in `Serves`; a cycle then moves it by
the instruction in the memory latch, which is instruction `n` of the trace.
-/

set_option autoImplicit false

namespace Sustemu

open Lib Lib.Rv64i

/-! ## What is compared -/

/-- Where an instruction was, the register it wrote and where it went. -/
def IRInst.outcome (ir : IRInst) : Word × Option (Reg × Word) × Word :=
  (ir.pc, ir.rd.map fun rd => (rd, ir.result), ir.dnpc)

/-- An access as the memory stage performs it. -/
inductive Access where
  | load (addr : Word) (width : Nat) (value : Word)
  | store (addr : Word) (width : Nat) (data : Word)
  deriving DecidableEq

/-- The access an instruction performed. -/
def IRInst.accessed (ir : IRInst) : Option Access :=
  match ir.itype with
  | .load => some (.load ir.memAddr ir.memWidth ir.result)
  | .store => some (.store ir.memAddr ir.memWidth ir.src2Val)
  | _ => none

theorem IRInst.Similar.outcome {ir ir' : IRInst} (similar : ir.Similar ir')
    (load : ir.itype = .load → ir'.result = ir.result) : ir'.outcome = ir.outcome := by
  unfold IRInst.outcome
  rw [similar.pc, similar.dnpc, similar.rd]
  cases rd : ir.rd with
  | none => rfl
  | some target =>
      by_cases isLoad : ir.itype = .load
      · rw [load isLoad]
      · rw [similar.result isLoad (by rw [rd]; exact nofun)]

theorem IRInst.Similar.accessed {ir ir' : IRInst} (similar : ir.Similar ir')
    (load : ir.itype = .load → ir'.result = ir.result) : ir'.accessed = ir.accessed := by
  unfold IRInst.accessed
  rw [similar.itype]
  cases kind : ir.itype with
  | load =>
      obtain ⟨addr, width, _⟩ := similar.access (.inl kind)
      simp only [addr, width, load kind]
  | store =>
      obtain ⟨addr, width, _⟩ := similar.access (.inr kind)
      simp only [addr, width, similar.data kind]
  | _ => rfl

theorem accessed_filter (ir : List IRInst) : (ir.filter IRInst.isMemory).filterMap IRInst.accessed = ir.filterMap IRInst.accessed := by
  rw [List.filterMap_filter]
  congr 1
  funext ir
  unfold IRInst.isMemory IRInst.accessed
  split
  · rfl
  · next other =>
      cases kind : ir.itype <;> first | rfl | simp [kind] at other

theorem Performs.pc {h : Fin 2} {s s' : CoreArch} {ir : IRInst} (performs : Performs h s ir s') : ir.pc = s.cpu.pc := by
  cases performs with
  | intro value awaits _ _ run =>
      rw [withLoad_pc, (irExecute_sameInst run).1.pc, awaits.pc]

/-! ## Memory -/

/-- `M n` holds of worlds whose memory serves a trace from instruction `n` on. -/
structure Serves {σ τ : Type} {vm : VMem σ} (vm' : VMem τ) (t : Trace vm) (M : Nat → World τ → Prop) : Prop where
  load : ∀ {n w}, M n w → (t.inst n).itype = .load → ∃ level raw w',
    vm'.readLevel w (t.inst n).memAddr (t.inst n).memWidth = some (level, raw, w') ∧
      extend (t.inst n).memSign (t.inst n).memWidth raw = (t.inst n).result ∧ M (n + 1) w'
  store : ∀ {n w}, M n w → (t.inst n).itype = .store → ∃ w',
    vm'.write w (t.inst n).memAddr (t.inst n).memWidth (t.inst n).src2Val = some w' ∧ M (n + 1) w'
  pass : ∀ {n w}, M n w → (t.inst n).itype ≠ .load → (t.inst n).itype ≠ .store → M (n + 1) w
  fetch : ∀ {n w pc}, M n w → inDram pc = true → ∃ word w', vm'.ifetch w pc 4 = some (word, w') ∧ M n w' ∧
    ∀ i, n ≤ i → pc = t.pc i → word.setWidth 32 = (t.inst i).raw
  sys : ∀ {n w} sys, M n w → sys.hartid = w.sys.hartid → M n { w with sys := sys }

/-- A coherent memory that agrees with the run on its footprint serves it, and keeps what its stores do not destroy. -/
theorem serves_sees {σ τ : Type} {vm : VMem σ} {vm' : VMem τ} {t : Trace vm} {Rep : World τ → Flat → Prop} {f : Flat}
    (law : CoherentMemory vm' Rep) (contained : t.Contained) (determined : ∀ n, t.Determined f n) {Q : Flat → Prop}
    (keeps : ∀ n g, Q g → Q (g.perform (t.inst n).write)) :
    Serves vm' t fun n w => ∃ g, Rep w g ∧ t.Sees f g n ∧ Q g where
  load := by
    rintro n w ⟨g, rep, sees, kept⟩ load
    obtain ⟨cached, inside⟩ := contained.accesses n (.inl load)
    obtain ⟨level, raw, w', read, _, after, value⟩ := law.readLevel (t.inst n).memWidth rep cached
    refine ⟨level, raw, w', read, ?_, g, after, ?_, kept⟩
    · rw [value inside, sees.load load, (determined n).load load]
    · have next := sees.perform contained
      rwa [show (t.inst n).write = none from if_neg (by rw [load]; exact nofun)] at next
  store := by
    rintro n w ⟨g, rep, sees, kept⟩ store
    obtain ⟨cached, inside⟩ := contained.accesses n (.inr store)
    obtain ⟨w', wrote, _, after⟩ := law.write (t.inst n).src2Val rep cached inside
    have next := sees.perform contained
    have kept' := keeps n g kept
    rw [show (t.inst n).write = some _ from if_pos store] at next kept'
    exact ⟨w', wrote, _, after, next, kept'⟩
  pass := by
    rintro n w ⟨g, rep, sees, kept⟩ _ notStore
    have next := sees.perform contained
    rw [show (t.inst n).write = none from if_neg notStore] at next
    exact ⟨g, rep, next, kept⟩
  fetch := by
    rintro n w pc ⟨g, rep, sees, kept⟩ mapped
    obtain ⟨word, w', read, _, after, same⟩ := law.ifetch 4 rep mapped
    refine ⟨word, w', read, ⟨g, after, sees, kept⟩, ?_⟩
    rintro i later rfl
    rw [same (.of_aligned (contained.aligned i)) fun byte low high => sees.fresh i later byte ⟨low, high⟩,
      sees.word contained later, (determined i).raw]
  sys := by
    rintro n w sys ⟨g, rep, sees, kept⟩ hart
    exact ⟨g, law.sys sys rep hart, sees, kept⟩

section Stages

variable {σ τ β : Type} {vm : VMem σ} {vm' : VMem τ} {t : Trace vm} {M : Nat → World τ → Prop} {cfg : PipeConfig β}

/-- The number of instructions in a latch. -/
def PipeReg.count (r : PipeReg) : Nat := if r.valid then 1 else 0

theorem PipeReg.count_of_valid {r : PipeReg} (valid : r.valid = true) : r.count = 1 := if_pos valid

theorem PipeReg.count_of_empty {r : PipeReg} (empty : r.valid = false) : r.count = 0 := by
  unfold PipeReg.count
  rw [empty]
  rfl

/-- The memory stage on instruction `n` of the trace. -/
theorem MemStage.serves {r r' : PipeReg} {w w' : World τ} (stage : MemStage vm' r w r' w') (serves : Serves vm' t M) {n : Nat}
    (memory : M n w) (similar : r.valid = true → (t.inst n).Similar r.ir) : M (n + r.count) w' ∧
      (r'.valid = true → (t.inst n).Similar r'.ir ∧ ((t.inst n).itype = .load → r'.ir.result = (t.inst n).result)) := by
  cases stage with
  | bubble empty =>
      rw [PipeReg.count_of_empty empty, empty]
      exact ⟨memory, nofun⟩
  | access valid done =>
      have same := similar valid
      rw [PipeReg.count_of_valid valid]
      unfold irMemAccessLat at done
      split at done
      · next load =>
          have kind := same.itype.symm.trans load
          obtain ⟨addr, width, sign⟩ := same.access (.inl kind)
          obtain ⟨_, raw, _, read, value, after⟩ := serves.load memory kind
          rw [addr, width, read] at done
          cases done
          refine ⟨after, fun _ => ⟨same.trans ?_, fun _ => ?_⟩⟩
          · exact ⟨rfl, rfl, rfl, rfl, rfl, fun _ => ⟨addr.symm, width.symm, fun _ => rfl⟩, fun _ => rfl,
              fun other => absurd load other⟩
          · simp only
            rw [sign kind]
            exact value
      · next store =>
          have kind := same.itype.symm.trans store
          obtain ⟨addr, width, _⟩ := same.access (.inr kind)
          obtain ⟨_, wrote, after⟩ := serves.store memory kind
          rw [addr, width, same.data kind, wrote] at done
          cases done
          exact ⟨after, fun _ => ⟨same, fun load => nomatch kind.symm.trans load⟩⟩
      · next notLoad notStore =>
          cases done
          refine ⟨serves.pass memory (fun load => notLoad (same.itype.trans load)) fun store => notStore (same.itype.trans store),
            fun _ => ⟨same, fun load => absurd (same.itype.trans load) notLoad⟩⟩

theorem ExStage.serves {r r' : PipeReg} {w w' : World τ} (stage : ExStage vm' r w r' w') (serves : Serves vm' t M) {n : Nat}
    (memory : M n w) : M n w' := by
  have hart := stage.hart
  cases stage with
  | bubble => exact memory
  | execute live done => exact serves.sys _ memory hart

/-- The access of instruction `n` of the trace succeeds. -/
theorem irMemAccessLat_serves (serves : Serves vm' t M) {n : Nat} {w : World τ} (memory : M n w) {ir : IRInst}
    (similar : (t.inst n).Similar ir) : (irMemAccessLat vm' ir w).isSome = true := by
  unfold irMemAccessLat
  split
  · next load =>
      have kind := similar.itype.symm.trans load
      obtain ⟨addr, width, _⟩ := similar.access (.inl kind)
      obtain ⟨_, _, _, read, _⟩ := serves.load memory kind
      rw [addr, width, read]
      rfl
  · next store =>
      have kind := similar.itype.symm.trans store
      obtain ⟨addr, width, _⟩ := similar.access (.inr kind)
      obtain ⟨_, wrote, _⟩ := serves.store memory kind
      rw [addr, width, similar.data kind, wrote]
      rfl
  · rfl

end Stages

/-! ## The relation -/

namespace Inorder

variable {σ τ β : Type} {vm : VMem σ} {vm' : VMem τ} {t : Trace vm} {M : Nat → World τ → Prop} {cfg : PipeConfig β}
  {f : Flat} {h : Fin 2} {n : Nat} {e e' e₀ : Inorder τ β}

variable (t) in
/-- A fetched instruction is instruction `i` of the trace, if it comes from its address. -/
def FetchedAt (i : Nat) (ir : IRInst) : Prop := ir.pc = t.pc i → ir.raw = (t.inst i).raw

variable (cfg) in
/-- The fetch went on straight or to a predicted target in memory. -/
def Guarded (ir : IRInst) : Prop := cfg.predicted ir = ir.pc + 4 ∨ inDram (cfg.predicted ir) = true

variable (cfg t M h) in
/-- The first `n` instructions of the trace have left the memory stage. -/
structure Follows (n : Nat) (e : Inorder τ β) : Prop where
  flow : e.Flow cfg h (t.arch n)
  memory : M n e.world
  mem : (e.pipe.reg .mem).valid = true → FetchedAt t n (e.pipe.reg .mem).ir
  ex : (e.pipe.reg .ex).valid = true → FetchedAt t (n + (e.pipe.reg .mem).count) (e.pipe.reg .ex).ir ∧
    Guarded cfg (e.pipe.reg .ex).ir
  id : (e.pipe.reg .id).valid = true →
    FetchedAt t (n + (e.pipe.reg .mem).count + (e.pipe.reg .ex).count) (e.pipe.reg .id).ir ∧ Guarded cfg (e.pipe.reg .id).ir

section Step

variable (determined : ∀ n, t.Determined f n) (hart : ∀ n, (t.state n).world.sys.hartid = h) (serves : Serves vm' t M)
  (tame : vm'.Tame) (regular : t.Regular)

include determined hart in
/-- The instruction in the memory latch. -/
theorem Follows.similar (follows : e.Follows t M cfg h n) (valid : (e.pipe.reg .mem).valid = true) :
    (t.inst n).Similar (e.pipe.reg .mem).ir := by
  have performs := follows.flow.performed valid (e.pipe.reg .mem).ir.result
  have same : (e.pipe.reg .mem).ir.withLoad (e.pipe.reg .mem).ir.result = (e.pipe.reg .mem).ir := by
    unfold IRInst.withLoad
    split <;> rfl
  rw [same] at performs
  exact ((determined n).performs (hart n) performs (follows.mem valid performs.pc)).1

include determined hart in
/-- The system registers are those the trace has after the instruction in the memory latch. -/
theorem Follows.sys (follows : e.Follows t M cfg h n) :
    (t.state (n + (e.pipe.reg .mem).count)).world.sys.SameArch e.world.sys := by
  have hart' : e.world.sys.hartid = (t.state (n + (e.pipe.reg .mem).count)).world.sys.hartid := by
    rw [follows.flow.hart, hart]
  cases live : (e.pipe.reg .mem).valid with
  | false =>
      rw [PipeReg.count_of_empty live] at hart' ⊢
      exact .of_save (follows.flow.idle live).symm hart'
  | true =>
      rw [PipeReg.count_of_valid live] at hart' ⊢
      have similar := follows.similar determined hart live
      have performs := follows.flow.performed live (t.inst n).result
      have raw := follows.mem live ((withLoad_pc _ _).symm.trans performs.pc)
      have after := ((determined n).performs (hart n) performs (by simpa using raw)).2
        fun load => withLoad_result _ _ (similar.itype.trans load)
      have cpu : ((e.pipe.reg .mem).loaded (t.inst n).result).retired (t.arch n).cpu = (t.state (n + 1)).cpu :=
        congrArg CoreArch.cpu after
      rw [cpu] at after
      exact .of_save after hart'

section Ahead

variable (follows : e.Follows t M cfg h n) {mem ex : PipeReg} {w₀ w₁ w₂ : World τ} (memory : M n w₀)
  (quiet : e.world.sys.SameArch w₀.sys) (accessed : MemStage vm' (e.pipe.reg .mem) w₀ mem w₁)

include determined hart serves tame follows memory accessed in
/-- The state of the trace once the memory stage has run. -/
theorem Follows.retired_cpu : mem.retired (t.arch n).cpu = (t.state (n + (e.pipe.reg .mem).count)).cpu := by
  obtain ⟨_, value, loaded⟩ := accessed.loaded tame
  obtain ⟨_, results⟩ := accessed.serves serves memory (follows.similar determined hart)
  have valid : mem.valid = (e.pipe.reg .mem).valid := by
    rw [loaded]
    rfl
  cases live : (e.pipe.reg .mem).valid with
  | false =>
      rw [PipeReg.count_of_empty live, PipeReg.retired_of_empty (valid.trans live)]
      rfl
  | true =>
      obtain ⟨similar, load⟩ := results (valid.trans live)
      rw [PipeReg.count_of_valid live, PipeReg.retired_of_valid (valid.trans live), (determined n).cpu, similar.dnpc]
      congr 1
      exact similar.writeback load _

include determined hart serves tame follows memory accessed quiet in
/-- The instruction in the execute latch runs in the state of the trace. -/
theorem Follows.execution (live : (e.pipe.reg .ex).valid = true) (perf : Perf) : ∃ x s,
    irExecute perf (e.pipe.reg .ex).ir w₁.sys = some (x, s) ∧ (t.inst (n + (e.pipe.reg .mem).count)).Similar x := by
  obtain ⟨same, value, loaded⟩ := accessed.loaded tame
  have cpu := follows.retired_cpu determined hart serves tame memory accessed
  have awaits := follows.flow.ready live value
  have arch := ((follows.sys determined hart).trans quiet).trans same
  rw [loaded] at cpu
  rw [cpu] at awaits
  obtain ⟨x, s, run, similar, _⟩ := (determined _).executed awaits ((follows.ex live).1 awaits.pc) arch perf
  exact ⟨x, s, run, similar⟩

include determined hart serves tame follows memory accessed quiet in
/-- The program counter of the trace once the execute stage has run. -/
theorem Follows.executed (execute : ExStage vm' (e.pipe.reg .ex) w₁ ex w₂) :
    (ex.valid = true → (t.inst (n + (e.pipe.reg .mem).count)).Similar ex.ir) ∧
      (if ex.valid then ex.ir.dnpc else (mem.retired (t.arch n).cpu).pc) =
        t.pc (n + (e.pipe.reg .mem).count + (e.pipe.reg .ex).count) := by
  cases execute with
  | bubble empty =>
      rw [empty, PipeReg.count_of_empty empty, follows.retired_cpu determined hart serves tame memory accessed]
      exact ⟨nofun, rfl⟩
  | execute live done =>
      obtain ⟨x, s, run, similar⟩ := follows.execution determined hart serves tame memory quiet accessed live (vm'.perf w₁)
      cases done.symm.trans run
      rw [PipeReg.count_of_valid live]
      refine ⟨fun _ => similar, ?_⟩
      rw [if_pos rfl, similar.dnpc]
      exact (congrArg CPUState.pc (determined _).cpu).symm

include determined hart serves tame follows memory accessed quiet regular in
/-- The fetch of a cycle stays in memory, and on the path of the trace if the decode latch is. -/
theorem Follows.fetches (execute : ExStage vm' (e.pipe.reg .ex) w₁ ex w₂) :
    inDram (cfg.steer ex (e.pipe.reg .id) e.pipe.fetchPc).2 = true := by
  obtain ⟨_, value, loaded⟩ := accessed.loaded tame
  obtain ⟨_, next⟩ := follows.executed determined hart serves tame memory quiet accessed execute
  have path : (e.pipe.reg .id).valid = true →
      (e.pipe.reg .id).ir.pc = guess cfg (e.pipe.reg .ex) (mem.retired (t.arch n).cpu).pc := by
    rw [loaded]
    exact fun live => (follows.flow.follows live).2 value
  have fetch : e.pipe.fetchPc = guess cfg (e.pipe.reg .id)
      (guess cfg (e.pipe.reg .ex) (mem.retired (t.arch n).cpu).pc) := by
    rw [loaded]
    exact follows.flow.fetch value
  obtain ⟨live, target⟩ := steer_follows execute path fetch
  rw [target, next]
  rw [next] at live
  unfold guess
  split
  · next valid =>
      obtain ⟨wasValid, same, atPc⟩ := live valid
      rw [same]
      rcases (follows.id wasValid).2 with straight | inside
      · rw [straight, atPc]
        exact regular.next _
      · exact inside
  · exact regular.contained.mapped _

end Ahead

variable (targets : cfg.bpred.enabled = true → ∀ state pc raw, (cfg.bpred.predict state pc raw).1.taken = true →
  (cfg.bpred.predict state pc raw).1.btbHit = true → inDram (cfg.bpred.predict state pc raw).1.target = true)

omit determined hart serves tame regular in
include targets in
theorem predict_guarded {bpred bpred' : β} {pc next : Word} {raw : Raw} {taken : Bool}
    (guessed : predict cfg bpred pc raw = (taken, next, bpred')) : next = pc + 4 ∨ inDram next = true := by
  unfold predict at guessed
  split at guessed
  · next asked =>
      simp only [Bool.and_eq_true] at asked
      cases guessed
      split
      · next hit =>
          simp only [Bool.and_eq_true] at hit
          exact .inr (targets asked.1 _ _ _ hit.1 hit.2)
      · exact .inl rfl
  · cases guessed
    exact .inl rfl

include determined hart serves tame regular targets in
/-- A cycle moves the pipeline along the trace by the instruction in the memory latch. -/
theorem Follows.cycle (follows : e.Follows t M cfg h n) {mem ex : PipeReg} {w₁ w₂ : World τ}
    (cycle : Cycle vm' cfg e e' e₀ mem ex w₁ w₂) (memory : M n e₀.world) (quiet : e.world.sys.SameArch e₀.world.sys) :
    e'.Follows t M cfg h (n + (e.pipe.reg .mem).count) ∧
      (mem.valid = true → (t.inst n).Similar mem.ir ∧ ((t.inst n).itype = .load → mem.ir.result = (t.inst n).result)) := by
  obtain ⟨memory₁, results⟩ := cycle.memory.serves serves memory (follows.similar determined hart)
  obtain ⟨sameMem, value, loaded⟩ := cycle.memory.loaded tame
  have memValid : mem.valid = (e.pipe.reg .mem).valid := by
    rw [loaded]
    rfl
  obtain ⟨exValid, exPc, exRaw, exPredicted⟩ := cycle.execute.keeps cfg
  have exCount : ex.count = (e.pipe.reg .ex).count := by
    unfold PipeReg.count
    rw [exValid]
  obtain ⟨b, flow, stays, moves⟩ := follows.flow.cycle tame quiet cycle
  have inside := follows.fetches determined hart serves tame regular memory quiet cycle.memory cycle.execute
  have memory₂ := cycle.execute.serves serves memory₁
  have arrived : b = t.arch (n + (e.pipe.reg .mem).count) := by
    cases live : (e.pipe.reg .mem).valid with
    | false =>
        rw [PipeReg.count_of_empty live]
        exact stays (memValid.trans live)
    | true =>
        rw [PipeReg.count_of_valid live]
        obtain ⟨similar, load⟩ := results (memValid.trans live)
        exact ((determined n).performs (hart n) (moves (memValid.trans live)) similar.raw).2 load
  have decoded : ∀ r : PipeReg, (decodeStage e.written.gpr mem ex (cfg.steer ex (e.pipe.reg .id) e.pipe.fetchPc).1).1 = r →
      r.valid = true → FetchedAt t (n + (e.pipe.reg .mem).count + (e.pipe.reg .ex).count) r.ir ∧ Guarded cfg r.ir := by
    rintro r rfl live
    obtain ⟨valid, atPc, raw, predicted⟩ := decodeStage_keeps cfg e.written.gpr mem ex
      (cfg.steer ex (e.pipe.reg .id) e.pipe.fetchPc).1
    rw [valid] at live
    have same := steer_of_valid live
    rw [same] at live atPc raw predicted ⊢
    unfold FetchedAt Guarded
    rw [atPc, raw, predicted]
    exact follows.id live
  refine ⟨⟨arrived ▸ flow, ?_, ?_, ?_, ?_⟩, results⟩
  · have front := cycle.front
    generalize (decodeStage e.written.gpr mem ex (cfg.steer ex (e.pipe.reg .id) e.pipe.fetchPc).1).2 = stalled at front
    cases front with
    | stall _ _ _ world => exact world ▸ memory₂
    | fetch read _ _ _ _ world =>
        obtain ⟨_, _, found, after, _⟩ := serves.fetch memory₂ inside
        cases found.symm.trans read
        exact world ▸ after
  · rw [cycle.memLatch]
    intro live
    unfold FetchedAt
    rw [exPc, exRaw]
    exact (follows.ex (exValid.symm.trans live)).1
  · rw [cycle.memLatch, exCount]
    have front := cycle.front
    generalize (decodeStage e.written.gpr mem ex (cfg.steer ex (e.pipe.reg .id) e.pipe.fetchPc).1).2 = stalled at front
    cases front with
    | stall empty _ _ _ =>
        rw [empty]
        exact nofun
    | fetch _ _ exLatch _ _ _ => exact decoded _ exLatch.symm
  · rw [cycle.memLatch, exCount]
    have front := cycle.front
    generalize (decodeStage e.written.gpr mem ex (cfg.steer ex (e.pipe.reg .id) e.pipe.fetchPc).1).2 = stalled at front
    cases front with
    | stall empty idLatch _ _ =>
        rw [PipeReg.count_of_empty empty]
        exact decoded _ idLatch.symm
    | fetch read guessed _ idLatch _ _ =>
        rename_i word _ gpr junk taken next _ _ _ _ _
        obtain ⟨_, atPc, raw⟩ := irDecode_fetched gpr (word.setWidth 32)
          (cfg.steer ex (e.pipe.reg .id) e.pipe.fetchPc).2 junk
        obtain ⟨_, _, found, _, code⟩ := serves.fetch memory₂ inside
        cases found.symm.trans read
        rw [idLatch]
        intro _
        refine ⟨fun here => raw.trans (code _ (by omega) (atPc.symm.trans here)), ?_⟩
        unfold Guarded
        rw [predicted_fetched gpr junk guessed]
        change next = (irDecode gpr (word.setWidth 32) _ _ junk).pc + 4 ∨ _
        rw [atPc]
        exact predict_guarded targets guessed

include determined hart serves tame regular in
/-- No stage fails. -/
theorem Follows.progress (follows : e.Follows t M cfg h n) (off : cfg.difftestEn = false) :
    ∃ e', stages vm' cfg e = some e' := by
  apply stages_isSome off
  · exact fun live => irMemAccessLat_serves serves follows.memory (follows.similar determined hart live)
  · intro mem w₁ accessed live
    obtain ⟨_, _, run, _⟩ := follows.execution determined hart serves tame follows.memory (.refl _) accessed live (vm'.perf w₁)
    rw [run]
    rfl
  · intro mem w₁ ex w₂ accessed execute
    obtain ⟨memory₁, _⟩ := accessed.serves serves follows.memory (follows.similar determined hart)
    have inside := follows.fetches determined hart serves tame regular follows.memory (.refl _) accessed execute
    obtain ⟨_, _, found, _⟩ := serves.fetch (execute.serves serves memory₁) inside
    rw [found]
    rfl

end Step

/-! ## What has been logged -/

/-- The trace goes on with the instruction in a latch. -/
theorem range_content {γ : Type} {g : IRInst → Option γ} {r : PipeReg} (same : r.valid = true → g r.ir = g (t.inst n)) :
    ((List.range n).filterMap fun i => g (t.inst i)) ++ r.content.filterMap g =
      (List.range (n + r.count)).filterMap fun i => g (t.inst i) := by
  unfold PipeReg.content PipeReg.count
  split
  · next live =>
      rw [List.range_succ, List.filterMap_append, List.filterMap_cons, List.filterMap_cons, same live]
      rfl
  · exact List.append_nil _

variable (cfg t M h) in
/-- The pipeline is at position `n` of the trace, and what it has logged is the trace's. -/
structure Mirrors (n : Nat) (log : List PipeEvent) (e : Inorder τ β) : Prop where
  follows : e.Follows t M cfg h n
  retired : (retiredOf log ++ (e.pipe.reg .wb).content).map IRInst.outcome = (List.range n).map fun i => (t.inst i).outcome
  accesses : (accessesOf log).filterMap IRInst.accessed = (List.range n).filterMap fun i => (t.inst i).accessed

section Run

variable {log : List PipeEvent} (determined : ∀ n, t.Determined f n) (hart : ∀ n, (t.state n).world.sys.hartid = h)
  (serves : Serves vm' t M) (tame : vm'.Tame) (regular : t.Regular)
  (targets : cfg.bpred.enabled = true → ∀ state pc raw, (cfg.bpred.predict state pc raw).1.taken = true →
    (cfg.bpred.predict state pc raw).1.btbHit = true → inDram (cfg.bpred.predict state pc raw).1.target = true)

include determined hart serves tame regular targets in
theorem Mirrors.cycle (mirrors : e.Mirrors t M cfg h n log) {mem ex : PipeReg} {w₁ w₂ : World τ}
    (cycle : Cycle vm' cfg e e' e₀ mem ex w₁ w₂) (memory : M n e₀.world) (quiet : e.world.sys.SameArch e₀.world.sys) :
    e'.Mirrors t M cfg h (n + (e.pipe.reg .mem).count) (log ++ cycleEvents (e.pipe.reg .wb) mem) := by
  obtain ⟨follows, results⟩ := mirrors.follows.cycle determined hart serves tame regular targets cycle memory quiet
  have count : (e.pipe.reg .mem).count = mem.count := by
    obtain ⟨_, value, loaded⟩ := cycle.memory.loaded tame
    rw [loaded]
    rfl
  refine ⟨follows, ?_, ?_⟩
  · rw [cycle.wbLatch, retiredOf_append, retiredOf_cycle, List.map_append, mirrors.retired, count]
    simp only [← List.filterMap_eq_map]
    exact range_content (g := fun ir => some ir.outcome)
      fun live => congrArg some ((results live).1.outcome (results live).2)
  · rw [accessesOf_append, accessesOf_cycle, List.filterMap_append, accessed_filter, mirrors.accesses, count]
    exact range_content fun live => (results live).1.accessed (results live).2

omit determined hart serves tame regular targets in
/-- Nothing that the relation speaks of has changed but the memory. -/
theorem Mirrors.congr (mirrors : e.Mirrors t M cfg h n log) (reg : e'.pipe.reg = e.pipe.reg)
    (fetch : e'.pipe.fetchPc = e.pipe.fetchPc) (cpu : e'.cpu = e.cpu) (sys : e.world.sys.SameArch e'.world.sys)
    {M' : Nat → World τ → Prop} (memory : M' n e'.world) : e'.Mirrors t M' cfg h n log := by
  obtain ⟨⟨flow, _, mem, ex, id⟩, retired, accesses⟩ := mirrors
  constructor
  · constructor
    · exact flow.congr reg fetch cpu sys
    · exact memory
    · rw [reg]
      exact mem
    · rw [reg]
      exact ex
    · rw [reg]
      exact id
  · rw [reg]
    exact retired
  · exact accesses

omit determined hart serves tame regular targets in
/-- Only counters differ. -/
theorem Mirrors.counted (mirrors : e.Mirrors t M cfg h n log) (counted : e.Counted e') (memory : M n e'.world) :
    e'.Mirrors t M cfg h n log :=
  mirrors.congr counted.reg counted.fetch counted.cpu counted.sys memory

include determined hart serves tame regular targets in
/-- The stages move the pipeline along the trace. -/
theorem Mirrors.stages (mirrors : e.Mirrors t M cfg h n log) (off : cfg.difftestEn = false) : ∃ e' events n',
    stages vm' cfg e = some e' ∧ e'.log = e.log ++ events ∧ e'.Mirrors t M cfg h n' (log ++ events) := by
  obtain ⟨e', done⟩ := mirrors.follows.progress determined hart serves tame regular off
  obtain ⟨e₀, mem, ex, w₁, w₂, cycle⟩ := stages_cycle done
  obtain rfl := cycle.checks.off off
  exact ⟨e', _, _, done, cycle.log,
    mirrors.cycle determined hart serves tame regular targets cycle mirrors.follows.memory (.refl _)⟩

include determined hart serves tame regular targets in
theorem Mirrors.pipelineCycle (mirrors : e.Mirrors t M cfg h n e.log) (off : cfg.difftestEn = false) : ∃ e' n',
    pipelineCycle vm' cfg e = some e' ∧ e'.Mirrors t M cfg h n' e'.log := by
  unfold Inorder.pipelineCycle
  split
  · exact ⟨_, n, rfl, mirrors.counted (frozen_counted e).1 (serves.sys _ mirrors.follows.memory rfl)⟩
  · obtain ⟨e', events, n', done, logged, after⟩ := mirrors.stages determined hart serves tame regular targets off
    rw [done]
    refine ⟨_, n', rfl, ?_⟩
    change Mirrors t M cfg h n' e'.log _
    rw [logged]
    exact after.counted (syncInstret_counted e') (serves.sys _ (serves.sys _ after.follows.memory rfl) rfl)

include determined hart serves tame regular targets in
theorem Mirrors.pipelineCycleCore (mirrors : e.Mirrors t M cfg h n log) (off : cfg.difftestEn = false) : ∃ e' events n',
    pipelineCycleCore vm' cfg e = some e' ∧ e'.log = e.log ++ events ∧ e'.Mirrors t M cfg h n' (log ++ events) := by
  unfold Inorder.pipelineCycleCore
  split
  · refine ⟨_, [], n, rfl, (List.append_nil _).symm, ?_⟩
    rw [List.append_nil]
    exact mirrors.counted (frozen_counted e).2 (serves.sys _ (serves.sys _ mirrors.follows.memory rfl) rfl)
  · obtain ⟨e', events, n', done, logged, after⟩ := mirrors.stages determined hart serves tame regular targets off
    rw [done]
    exact ⟨_, events, n', rfl, logged,
      after.counted (syncInstret_counted e') (serves.sys _ (serves.sys _ after.follows.memory rfl) rfl)⟩

include determined hart serves tame regular targets in
theorem Mirrors.run (mirrors : e.Mirrors t M cfg h n e.log) (off : cfg.difftestEn = false) (k : Nat) : ∃ e' n',
    run vm' cfg k e = some e' ∧ e'.Mirrors t M cfg h n' e'.log := by
  induction k generalizing n e with
  | zero => exact ⟨e, n, rfl, mirrors⟩
  | succ k ih =>
      obtain ⟨e₁, n₁, done, after⟩ := mirrors.pipelineCycle determined hart serves tame regular targets off
      obtain ⟨e', n', rest, last⟩ := ih after
      refine ⟨e', n', ?_, last⟩
      rw [Inorder.run, done]
      exact rest

omit determined hart serves tame regular targets in
/-- The instructions retired are those of the trace, up to the one to be written back. -/
theorem Mirrors.prefixes (mirrors : e.Mirrors t M cfg h n log) : ∃ k, k ≤ n ∧ n ≤ k + 1 ∧
    (retiredOf log).map IRInst.outcome = (List.range k).map fun i => (t.inst i).outcome := by
  have retired := mirrors.retired
  unfold PipeReg.content at retired
  split at retired
  · cases n with
    | zero =>
        rw [List.map_append] at retired
        exact nomatch (List.append_eq_nil_iff.mp retired).2
    | succ k =>
        rw [List.range_succ, List.map_append, List.map_append] at retired
        exact ⟨k, by omega, by omega, (List.append_inj' retired rfl).1⟩
  · rw [List.append_nil] at retired
    exact ⟨n, by omega, by omega, retired⟩

end Run

variable (cfg) in
theorem init_mirrors {cpu : CPUState} {world : World τ} (slots : Fin 4 → PipeReg) (bpred : β) (diffCpu : CPUState)
    (diffInit : Bool) (start : t.arch 0 = .save cpu world.sys) (hart : world.sys.hartid = h) (memory : M 0 world) :
    (init cfg slots cpu world bpred diffCpu diffInit).Mirrors t M cfg h 0 [] := by
  have flow : (init cfg slots cpu world bpred diffCpu diffInit).Flow cfg world.sys.hartid (.save cpu world.sys) :=
    (init_history slots cpu world bpred diffCpu diffInit).flow
  rw [hart, ← start] at flow
  exact ⟨⟨flow, memory, nofun, nofun, nofun⟩, rfl, rfl⟩

end Inorder

/-! ## One core -/

section Levels

variable {σ : Type} {vm : VMem σ}

/-- The memory with any pattern of cache hit levels; the levels it has itself are one such pattern. -/
def VMem.withLevels (vm : VMem σ) (pattern : World σ → Word → Nat → Fin 3 → Fin 3) : VMem σ :=
  { vm with
    readLevel := fun w addr len =>
      (vm.readLevel w addr len).map fun (level, value, w') => (pattern w addr len level, value, w') }

theorem withLevels_coherent {Rep : World σ → Flat → Prop} (law : CoherentMemory vm Rep)
    (pattern : World σ → Word → Nat → Fin 3 → Fin 3) : CoherentMemory (vm.withLevels pattern) Rep where
  ifetch := law.ifetch
  read := law.read
  readLevel := by
    intro w f addr len rep cached
    obtain ⟨level, value, w', read, rest⟩ := law.readLevel len rep cached
    exact ⟨pattern w addr len level, value, w', by simp only [VMem.withLevels, read, Option.map_some], rest⟩
  fillAndRead := law.fillAndRead
  probeLevel := law.probeLevel
  write := law.write
  sys := law.sys
  uncached := law.uncached
  uncachedWrite := law.uncachedWrite
  missed := law.missed

theorem withLevels_tame (tame : vm.Tame) (pattern : World σ → Word → Nat → Fin 3 → Fin 3) : (vm.withLevels pattern).Tame where
  ifetch := tame.ifetch
  read := tame.read
  readLevel := by
    intro w addr len level value w' read
    obtain ⟨_, found, same⟩ := Option.map_eq_some_iff.mp read
    cases same
    exact tame.readLevel found
  write := tame.write

end Levels

/-- The pipeline never fails, and what it retires and the accesses it performs are prefixes of those of the functional run;
the accesses may be one instruction ahead. -/
theorem inorder_refines_functional {β δ : Type} (devices : Devices δ) (cfg : PipeConfig β) (off : cfg.difftestEn = false)
    (targets : cfg.bpred.enabled = true → ∀ state pc raw, (cfg.bpred.predict state pc raw).1.taken = true →
      (cfg.bpred.predict state pc raw).1.btbHit = true → inDram (cfg.bpred.predict state pc raw).1.target = true)
    (pattern : World (MemState δ) → Word → Nat → Fin 3 → Fin 3) (slots : Fin 4 → PipeReg) (cpu : CPUState) (sys : Sys)
    (hart : sys.hartid = 0) (pmem : ByteMem) (dev : δ) (bpred : β) (diffCpu : CPUState) (diffInit : Bool)
    (t : Trace (hierarchy ⟨1, prefetchHint, devices⟩)) (start : t.state 0 = ⟨cpu, ⟨sys, MemState.init pmem dev⟩⟩)
    (regular : t.Regular) (k : Nat) :
    ∃ e, Inorder.run ((hierarchy ⟨1, prefetchHint, devices⟩).withLevels pattern) cfg k
        (Inorder.init cfg slots cpu ⟨sys, MemState.init pmem dev⟩ bpred diffCpu diffInit) = some e ∧
      ∃ n m, n ≤ m ∧ m ≤ n + 1 ∧
        (retiredOf e.log).map IRInst.outcome = (List.range n).map (fun i => (t.inst i).outcome) ∧
        (accessesOf e.log).filterMap IRInst.accessed = (List.range m).filterMap fun i => (t.inst i).accessed := by
  have law : CoherentMemory (hierarchy ⟨1, prefetchHint, devices⟩)
      fun w f => Represents ⟨1, prefetchHint, devices⟩ f w := hierarchy_coherent rfl
  have rep : Represents ⟨1, prefetchHint, devices⟩ ⟨pmem, ∅⟩ ⟨sys, MemState.init pmem dev⟩ :=
    ⟨init_represents _ pmem dev, fun _ => hart⟩
  have rep₀ : Represents ⟨1, prefetchHint, devices⟩ ⟨pmem, ∅⟩ (t.state 0).world := by
    rw [start]
    exact rep
  have determined := regular.determined law rfl rep₀
  have harts : ∀ n, (t.state n).world.sys.hartid = 0 := by
    intro n
    rw [regular.contained.hart law rfl rep₀, start]
    exact hart
  have serves := serves_sees (withLevels_coherent law pattern) regular.contained determined (Q := fun _ => True) fun _ _ _ => trivial
  have init := Inorder.init_mirrors (t := t)
    (M := fun n w => ∃ g, Represents ⟨1, prefetchHint, devices⟩ g w ∧ t.Sees ⟨pmem, ∅⟩ g n ∧ True) cfg slots bpred diffCpu diffInit (by unfold Trace.arch; rw [start]) hart ⟨_, rep, t.sees_self rfl, trivial⟩
  obtain ⟨e, m, done, mirrors⟩ := Inorder.Mirrors.run
    (e := .init cfg slots cpu ⟨sys, MemState.init pmem dev⟩ bpred diffCpu diffInit) determined harts serves
    (withLevels_tame (hierarchy_tame _) pattern) regular targets init off k
  obtain ⟨n, low, high, retired⟩ := mirrors.prefixes
  exact ⟨e, done, n, m, low, high, retired, mirrors.accesses⟩

/-- Cycles of the pipeline inside the counting loop, with every access reported as a miss of both caches. -/
def countingPipe (k : Nat) : Option (Inorder (MemState Unit) Unit) :=
  Inorder.run ((hierarchy (.plain 1)).withLevels fun _ _ _ _ => 2) .plain k
    (Inorder.init .plain (fun _ => .zero) ⟨RegFile.empty.set 2 (countingWord 0), mbase + 4⟩
      ⟨Sys.init, MemState.init (image (counting.map Instr.encode)) ()⟩ () ⟨.empty, 0⟩ false)

/-- Each turn of the loop retires a load, an addition that waits for it, a store of the sum and a jump. -/
theorem inorder_refines_functional_counting : ∃ (t : Trace (hierarchy (.plain 1))) (e : Inorder (MemState Unit) Unit),
    t.Regular ∧ countingPipe 200 = some e ∧ (retiredOf e.log).length = 16 ∧ (accessesOf e.log).length = 9 ∧
      ∃ n m, n ≤ m ∧ m ≤ n + 1 ∧
        (retiredOf e.log).map IRInst.outcome = (List.range n).map (fun i => (t.inst i).outcome) ∧
        (accessesOf e.log).filterMap IRInst.accessed = (List.range m).filterMap fun i => (t.inst i).accessed := by
  have counts : (countingPipe 200).any (fun e =>
      decide ((retiredOf e.log).length = 16) && decide ((accessesOf e.log).length = 9)) = true := by
    decide +kernel
  obtain ⟨c, t, start, computes, loop⟩ := counting_trace 1 (countingWord_behind 0) Sys.init fun _ => rfl
  have regular : t.Regular :=
    computes.regular (fun n => (loop n).contained) (fun n => (loop n).within) (by rw [start]; rfl) (by rw [start]; rfl)
  obtain ⟨e, done, prefixes⟩ := inorder_refines_functional Devices.none .plain rfl nofun (fun _ _ _ _ => 2) (fun _ => .zero)
    ⟨RegFile.empty.set 2 (countingWord 0), mbase + 4⟩ Sys.init rfl (image (counting.map Instr.encode)) () () ⟨.empty, 0⟩
    false t start regular 200
  have reached : countingPipe 200 = some e := done
  rw [reached, Option.any_some, Bool.and_eq_true, decide_eq_true_eq, decide_eq_true_eq] at counts
  exact ⟨t, e, regular, done, counts.1, counts.2, prefixes⟩

end Sustemu
