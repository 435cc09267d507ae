import Sustemu.Inorder.Pipeline

/-!
# What a cycle of the pipeline does

The stages of one cycle act on four latches. `Cycle` says, stage by stage, what
becomes of each latch, of the world and of the fetch address; it is all that
later modules use of the stage functions.
-/

set_option autoImplicit false

namespace Sustemu

open Lib

section Latches

variable {σ β : Type} (vm : VMem σ) (cfg : PipeConfig β)

/-- The memory stage on its latch. -/
inductive MemStage : PipeReg → World σ → PipeReg → World σ → Prop
  | bubble {r : PipeReg} {w : World σ} (empty : r.valid = false) : MemStage r w r w
  | access {r : PipeReg} {w w' : World σ} {ir : IRInst} {lat : Nat} (valid : r.valid = true)
      (done : irMemAccessLat vm r.ir w = some (ir, lat, w')) : MemStage r w ⟨ir, true⟩ w'

/-- The execute stage on its latch. -/
inductive ExStage : PipeReg → World σ → PipeReg → World σ → Prop
  | bubble {r : PipeReg} {w : World σ} (empty : r.valid = false) : ExStage r w r w
  | execute {r : PipeReg} {w : World σ} {ir : IRInst} {sys : Sys} (valid : r.valid = true)
      (done : irExecute (vm.perf w) r.ir w.sys = some (ir, sys)) :
      ExStage r w ⟨ir, true⟩ { w with sys := if ir.fault then sys.abort else sys }

variable {vm} in
theorem MemStage.valid {r r' : PipeReg} {w w' : World σ} (stage : MemStage vm r w r' w') : r'.valid = r.valid := by
  cases stage with
  | bubble => rfl
  | access valid => exact valid.symm

variable {vm} in
theorem ExStage.valid {r r' : PipeReg} {w w' : World σ} (stage : ExStage vm r w r' w') : r'.valid = r.valid := by
  cases stage with
  | bubble => rfl
  | execute valid => exact valid.symm

/-- Where the fetch went after an instruction. -/
def PipeConfig.predicted (ir : IRInst) : Word := if cfg.bpred.enabled then ir.bpPredictedPc else ir.snpc

/-- The executed instruction went elsewhere than the fetch did. -/
def PipeConfig.redirects (ex : PipeReg) : Prop := ex.valid = true ∧ ex.ir.dnpc ≠ cfg.predicted ex.ir

instance (ex : PipeReg) : Decidable (cfg.redirects ex) := inferInstanceAs (Decidable (_ ∧ _))

/-- The decode latch and the fetch address once the execute stage has run. -/
def PipeConfig.steer (ex id : PipeReg) (pc : Word) : PipeReg × Word :=
  if cfg.redirects ex then ({ id with valid := false }, ex.ir.dnpc) else (id, pc)

/-- The operands of the decode stage, forwarded from the two stages ahead. -/
def IRInst.forwarded (ir : IRInst) (gpr : RegFile) (mem ex : PipeReg) : IRInst :=
  let ir := (ir.reread fun r => some (gpr.get r)).reread mem.forwards
  if ex.ir.itype ≠ .load then ir.reread ex.forwards else ir

/-- The decode stage on its latch. -/
def decodeStage (gpr : RegFile) (mem ex id : PipeReg) : PipeReg × Bool :=
  if id.valid then
    if Inorder.loadUse ex id.ir then (⟨id.ir.reread fun r => some (gpr.get r), true⟩, true)
    else (⟨id.ir.forwarded gpr mem ex, true⟩, false)
  else (id, false)

/-- The events of a cycle: the instruction written back and the access performed. -/
def cycleEvents (wb mem : PipeReg) : List PipeEvent :=
  (if wb.valid then [.retire wb.ir] else []) ++
    if mem.valid ∧ (mem.ir.itype = .load ∨ mem.ir.itype = .store) then [.access mem.ir] else []

end Latches

namespace Inorder

variable {σ β : Type} (vm : VMem σ) (cfg : PipeConfig β)

/-- Differential testing of the instruction in the write-back latch: only the world and the reference change. -/
structure Checks (e e₀ : Inorder σ β) : Prop where
  checked : (e.pipe.reg .wb).valid = true → difftestStep vm cfg (e.pipe.reg .wb).ir e = some e₀
  skipped : (e.pipe.reg .wb).valid = false → e₀ = e

/-- The registers once the write-back latch is empty. -/
def written (e : Inorder σ β) : CPUState :=
  if (e.pipe.reg .wb).valid then
    ⟨irWriteback (e.pipe.reg .wb).ir e.cpu.gpr, (e.pipe.reg .wb).ir.dnpc⟩
  else e.cpu

/-- How the front of the pipeline moves: on a stall the decode latch waits, otherwise an instruction is fetched. -/
inductive Fetches (w : World σ) (id₂ : PipeReg) (pc : Word) (e' : Inorder σ β) : Bool → Prop
  | stall (ex : (e'.pipe.reg .ex).valid = false) (id : e'.pipe.reg .id = id₂) (fetch : e'.pipe.fetchPc = pc)
      (world : e'.world = w) : Fetches w id₂ pc e' true
  | fetch {word : Word} {w' : World σ} {gpr : RegFile} {junk : IRInst} {taken : Bool} {next : Word} {bpred bpred' : β}
      (read : vm.ifetch w pc 4 = some (word, w')) (guess : predict cfg bpred pc (word.setWidth 32) = (taken, next, bpred'))
      (ex : e'.pipe.reg .ex = id₂)
      (id : e'.pipe.reg .id = ⟨(irDecode gpr (word.setWidth 32) pc (pc + 4) junk).annotate taken next, true⟩)
      (fetch : e'.pipe.fetchPc = next) (world : e'.world = w') : Fetches w id₂ pc e' false

/-- A cycle in which no stage is frozen. -/
structure Cycle (e e' : Inorder σ β) (e₀ : Inorder σ β) (mem ex : PipeReg) (w₁ w₂ : World σ) : Prop where
  checks : Checks vm cfg e e₀
  memory : MemStage vm (e.pipe.reg .mem) e₀.world mem w₁
  execute : ExStage vm (e.pipe.reg .ex) w₁ ex w₂
  front : Fetches vm cfg w₂
    (decodeStage e.written.gpr mem ex (cfg.steer ex (e.pipe.reg .id) e.pipe.fetchPc).1).1
    (cfg.steer ex (e.pipe.reg .id) e.pipe.fetchPc).2 e'
    (decodeStage e.written.gpr mem ex (cfg.steer ex (e.pipe.reg .id) e.pipe.fetchPc).1).2
  log : e'.log = e.log ++ cycleEvents (e.pipe.reg .wb) mem
  wbLatch : e'.pipe.reg .wb = mem
  memLatch : e'.pipe.reg .mem = ex
  cpu : e'.cpu = e.written
  diffCpu : e'.diffCpu = e₀.diffCpu
  diffInit : e'.diffInit = e₀.diffInit

variable {vm cfg} {e e₀ e' : Inorder σ β}

/-- Differential testing keeps everything but the world and its reference. -/
theorem difftestStep_keeps {committed : IRInst} (done : difftestStep vm cfg committed e = some e₀) :
    e₀.pipe = e.pipe ∧ e₀.stats = e.stats ∧ e₀.cpu = e.cpu ∧ e₀.bpred = e.bpred ∧ e₀.log = e.log := by
  unfold difftestStep at done
  split at done
  · simp only at done
    split at done
    · cases done
    · obtain ⟨⟨ir, world⟩, _, done⟩ := Option.bind_eq_some_iff.mp done
      simp only at done
      split at done
      · split at done
        · cases done
          exact ⟨rfl, rfl, rfl, rfl, rfl⟩
        · split at done
          · cases done
          · cases done
            exact ⟨rfl, rfl, rfl, rfl, rfl⟩
      · cases done
        exact ⟨rfl, rfl, rfl, rfl, rfl⟩
  · cases done
    exact ⟨rfl, rfl, rfl, rfl, rfl⟩

theorem Checks.off (off : cfg.difftestEn = false) (checks : Checks vm cfg e e₀) : e₀ = e := by
  cases valid : (e.pipe.reg .wb).valid with
  | false => exact checks.skipped valid
  | true =>
      have done := checks.checked valid
      unfold difftestStep at done
      rw [off] at done
      exact (Option.some.inj done).symm

/-! ## The stages one by one -/

theorem stageWB_spec (done : stageWB vm cfg e = some e') : ∃ e₀, Checks vm cfg e e₀ ∧ e'.world = e₀.world ∧
    e'.diffCpu = e₀.diffCpu ∧ e'.diffInit = e₀.diffInit ∧ e'.bpred = e.bpred ∧ e'.cpu = e.written ∧
    e'.log = e.log ++ (if (e.pipe.reg .wb).valid then [.retire (e.pipe.reg .wb).ir] else []) ∧
    (e'.pipe.reg .wb).valid = false ∧ (∀ l, l ≠ .wb → e'.pipe.reg l = e.pipe.reg l) ∧
    e'.pipe.fetchPc = e.pipe.fetchPc ∧ e'.pipe.memStallRem = e.pipe.memStallRem := by
  unfold stageWB at done
  unfold written
  simp only at done
  split at done
  · next valid =>
      obtain ⟨e₀, checked, rfl⟩ := Option.map_eq_some_iff.mp done
      obtain ⟨pipe, _, cpu, bpred, log⟩ := difftestStep_keeps checked
      refine ⟨e₀, ⟨fun _ => checked, fun empty => ?_⟩, rfl, rfl, rfl, bpred, ?_, ?_, ?_, ?_, ?_, ?_⟩
      · rw [valid] at empty
        cases empty
      · rw [if_pos valid, ← cpu]
        rfl
      · rw [if_pos valid, ← log]
        rfl
      · simp [emit, Pipeline.kill]
      · intro l other
        rw [← pipe]
        exact Pipeline.reg_set_of_ne _ other _
      · rw [← pipe]
        rfl
      · rw [← pipe]
        rfl
  · next empty =>
      cases done
      refine ⟨e, ⟨fun valid => absurd valid empty, fun _ => rfl⟩, rfl, rfl, rfl, rfl, ?_, ?_, ?_, fun _ _ => rfl, rfl, rfl⟩
      · rw [if_neg empty]
      · rw [if_neg empty, List.append_nil]
      · simpa using empty

/-- What a stage that leaves the registers and the reference alone keeps. -/
structure Keeps (e e' : Inorder σ β) : Prop where
  cpu : e'.cpu = e.cpu
  diffCpu : e'.diffCpu = e.diffCpu
  diffInit : e'.diffInit = e.diffInit

theorem Keeps.trans {e'' : Inorder σ β} (first : e.Keeps e') (second : e'.Keeps e'') : e.Keeps e'' :=
  ⟨second.cpu.trans first.cpu, second.diffCpu.trans first.diffCpu, second.diffInit.trans first.diffInit⟩

theorem accessed_spec (e : Inorder σ β) (ir : IRInst) : (e.accessed ir).pipe = e.pipe ∧ (e.accessed ir).world = e.world ∧
    e.Keeps (e.accessed ir) ∧ (e.accessed ir).log = e.log ++ cycleEvents .zero ⟨ir, true⟩ := by
  unfold Inorder.accessed cycleEvents
  split
  · next memory => exact ⟨rfl, rfl, ⟨rfl, rfl, rfl⟩, by simp [emit, PipeReg.zero, memory]⟩
  · next other => exact ⟨rfl, rfl, ⟨rfl, rfl, rfl⟩, by simp [PipeReg.zero, other]⟩

theorem missed_spec (e : Inorder σ β) (ir : IRInst) (lat : Nat) : (e.missed ir lat).pipe.reg = e.pipe.reg ∧
    (e.missed ir lat).pipe.fetchPc = e.pipe.fetchPc ∧ (e.missed ir lat).world = e.world ∧ e.Keeps (e.missed ir lat) ∧
    (e.missed ir lat).log = e.log := by
  unfold missed
  split <;> exact ⟨rfl, rfl, rfl, ⟨rfl, rfl, rfl⟩, rfl⟩

theorem stageMEM_spec (done : stageMEM vm e = some e') : ∃ mem, MemStage vm (e.pipe.reg .mem) e.world mem e'.world ∧
    e.Keeps e' ∧ e'.pipe.reg .mem = mem ∧ (∀ l, l ≠ .mem → e'.pipe.reg l = e.pipe.reg l) ∧
    e'.pipe.fetchPc = e.pipe.fetchPc ∧ e'.log = e.log ++ cycleEvents .zero mem := by
  unfold stageMEM at done
  simp only at done
  split at done
  · next valid =>
      obtain ⟨⟨ir, lat, world⟩, read, rfl⟩ := Option.map_eq_some_iff.mp done
      simp only
      generalize stored : ({ e with world := world, pipe := e.pipe.set .mem ⟨ir, (e.pipe.reg .mem).valid⟩ } :
        Inorder σ β) = s
      obtain ⟨pipe, world₁, keeps, log⟩ := s.accessed_spec ir
      obtain ⟨reg, fetch, world₂, keeps', log'⟩ := (s.accessed ir).missed_spec ir lat
      rw [reg, fetch, world₂, world₁, pipe, log', log]
      have all := keeps.trans keeps'
      subst stored
      refine ⟨⟨ir, true⟩, .access valid read, ⟨all.cpu, all.diffCpu, all.diffInit⟩, ?_, ?_, rfl, rfl⟩
      · rw [Pipeline.reg_set_self, valid]
      · intro l other
        exact Pipeline.reg_set_of_ne _ other _
  · next empty =>
      cases done
      refine ⟨_, .bubble (by simpa using empty), ⟨rfl, rfl, rfl⟩, rfl, fun _ _ => rfl, rfl, ?_⟩
      simp [cycleEvents, PipeReg.zero, empty]

theorem reg_redirect (p : Pipeline) (pc : Word) (l : Latch) :
    (p.redirect pc).reg l = match l with
      | .id => { p.reg .id with valid := false }
      | .wb => { p.reg .wb with valid := false }
      | l => p.reg l := by
  have kept : ∀ q : Pipeline, ({ q with fetchPc := pc } : Pipeline).reg = q.reg := fun _ => rfl
  unfold Pipeline.redirect Pipeline.kill
  rw [kept]
  cases l with
  | id => rw [Pipeline.reg_set_of_ne _ (by decide), Pipeline.reg_set_self]
  | ex => rw [Pipeline.reg_set_of_ne _ (by decide), Pipeline.reg_set_of_ne _ (by decide)]
  | mem => rw [Pipeline.reg_set_of_ne _ (by decide), Pipeline.reg_set_of_ne _ (by decide)]
  | wb => rw [Pipeline.reg_set_self, Pipeline.reg_set_of_ne _ (by decide)]

theorem redirect_fetchPc (p : Pipeline) (pc : Word) : (p.redirect pc).fetchPc = pc := rfl

/-- The execute stage changes the decode latch, the empty fetch slot and the fetch address only to redirect the fetch. -/
theorem resolved_cases (e : Inorder σ β) (ir : IRInst) : (e.resolved cfg ir).world = e.world ∧ e.Keeps (e.resolved cfg ir) ∧
    (e.resolved cfg ir).log = e.log ∧
    (e.resolved cfg ir).pipe = if ir.dnpc ≠ cfg.predicted ir then e.pipe.redirect ir.dnpc else e.pipe := by
  unfold resolved PipeConfig.predicted
  split
  · simp only
    split <;> split <;> exact ⟨rfl, ⟨rfl, rfl, rfl⟩, rfl, rfl⟩
  · split <;> exact ⟨rfl, ⟨rfl, rfl, rfl⟩, rfl, rfl⟩

theorem resolved_latches (e : Inorder σ β) {ir : IRInst} (ex : e.pipe.reg .ex = ⟨ir, true⟩)
    (empty : (e.pipe.reg .wb).valid = false) : (e.resolved cfg ir).pipe.reg .ex = ⟨ir, true⟩ ∧
    (e.resolved cfg ir).pipe.reg .mem = e.pipe.reg .mem ∧ ((e.resolved cfg ir).pipe.reg .wb).valid = false ∧
    ((e.resolved cfg ir).pipe.reg .id, (e.resolved cfg ir).pipe.fetchPc) =
      cfg.steer ⟨ir, true⟩ (e.pipe.reg .id) e.pipe.fetchPc := by
  rw [(e.resolved_cases ir).2.2.2]
  by_cases wrong : ir.dnpc ≠ cfg.predicted ir
  · have redirects : cfg.redirects ⟨ir, true⟩ := ⟨rfl, wrong⟩
    rw [if_pos wrong, PipeConfig.steer, if_pos redirects]
    simp only [reg_redirect, redirect_fetchPc]
    exact ⟨ex, trivial, trivial, trivial⟩
  · have straight : ¬cfg.redirects ⟨ir, true⟩ := fun both => wrong both.2
    rw [if_neg wrong, PipeConfig.steer, if_neg straight]
    exact ⟨ex, rfl, empty, rfl⟩

theorem stageEX_spec (done : stageEX vm cfg e = some e') (empty : (e.pipe.reg .wb).valid = false) :
    ∃ ex, ExStage vm (e.pipe.reg .ex) e.world ex e'.world ∧ e.Keeps e' ∧ e'.log = e.log ∧ e'.pipe.reg .ex = ex ∧
      e'.pipe.reg .mem = e.pipe.reg .mem ∧ (e'.pipe.reg .wb).valid = false ∧
      (e'.pipe.reg .id, e'.pipe.fetchPc) = cfg.steer ex (e.pipe.reg .id) e.pipe.fetchPc := by
  unfold stageEX at done
  simp only at done
  split at done
  · next valid =>
      obtain ⟨⟨ir, sys⟩, run, rfl⟩ := Option.map_eq_some_iff.mp done
      simp only
      generalize stored : (({ e with pipe := e.pipe.set .ex ⟨ir, (e.pipe.reg .ex).valid⟩ } : Inorder σ β).setSys
        (if ir.fault then sys.abort else sys)) = s
      have pipe : s.pipe = e.pipe.set .ex ⟨ir, true⟩ := by
        rw [← stored, valid]
        rfl
      obtain ⟨world, keeps, log, _⟩ := resolved_cases s ir
      have executed : s.pipe.reg .ex = ⟨ir, true⟩ := by
        rw [pipe, Pipeline.reg_set_self]
      obtain ⟨ex, mem, wb, steer⟩ := resolved_latches s executed (by rw [pipe, Pipeline.reg_set_of_ne _ (by decide)]; exact empty)
      rw [pipe, Pipeline.reg_set_of_ne _ (by decide)] at mem steer
      subst stored
      refine ⟨_, ?_, ⟨keeps.cpu, keeps.diffCpu, keeps.diffInit⟩, log, ex, mem, wb, steer⟩
      rw [world]
      exact .execute valid run
  · next bubble =>
      cases done
      refine ⟨_, .bubble (by simpa using bubble), ⟨rfl, rfl, rfl⟩, rfl, rfl, rfl, empty, ?_⟩
      have straight : ¬cfg.redirects (e.pipe.reg .ex) := fun both => bubble both.1
      rw [PipeConfig.steer, if_neg straight]

theorem stageID_spec (e : Inorder σ β) : (stageID e).1.world = e.world ∧ e.Keeps (stageID e).1 ∧
    (stageID e).1.log = e.log ∧ (∀ l, l ≠ .id → (stageID e).1.pipe.reg l = e.pipe.reg l) ∧
    (stageID e).1.pipe.fetchPc = e.pipe.fetchPc ∧
    ((stageID e).1.pipe.reg .id, (stageID e).2) =
      decodeStage e.cpu.gpr (e.pipe.reg .mem) (e.pipe.reg .ex) (e.pipe.reg .id) := by
  unfold stageID decodeStage
  simp only
  split
  · next valid =>
      have same : loadUse (e.pipe.reg .ex) ((e.pipe.reg .id).ir.reread fun r => some (e.cpu.gpr.get r)) =
        loadUse (e.pipe.reg .ex) (e.pipe.reg .id).ir := rfl
      rw [same]
      split
      · refine ⟨rfl, ⟨rfl, rfl, rfl⟩, rfl, fun l other => Pipeline.reg_set_of_ne _ other _, rfl, ?_⟩
        rw [Pipeline.reg_set_self, valid]
      · refine ⟨rfl, ⟨rfl, rfl, rfl⟩, rfl, fun l other => Pipeline.reg_set_of_ne _ other _, rfl, ?_⟩
        rw [Pipeline.reg_set_self, valid]
        rfl
  · exact ⟨rfl, ⟨rfl, rfl, rfl⟩, rfl, fun _ _ => rfl, rfl, rfl⟩

theorem stageIF_spec {stalled : Bool} (done : stageIF vm cfg stalled e = some e') (empty : (e.pipe.reg .wb).valid = false) :
    e.Keeps e' ∧ e'.log = e.log ∧ (∀ l, l ≠ .wb → e'.pipe.reg l = e.pipe.reg l) ∧
      Fetches vm cfg e.world (e.pipe.reg .id) e.pipe.fetchPc { e' with pipe := e'.pipe.rotate stalled } stalled := by
  unfold stageIF at done
  cases stalled with
  | true =>
      cases done
      exact ⟨⟨rfl, rfl, rfl⟩, rfl, fun _ _ => rfl, .stall empty rfl rfl rfl⟩
  | false =>
      simp only [Bool.false_eq_true, if_false] at done
      obtain ⟨⟨word, world⟩, read, rfl⟩ := Option.map_eq_some_iff.mp done
      refine ⟨⟨rfl, rfl, rfl⟩, rfl, fun l other => Pipeline.reg_fetch_of_ne _ other _ _, ?_⟩
      exact .fetch read rfl
        ((Pipeline.reg_rotate _ false .ex).trans (Pipeline.reg_fetch_of_ne e.pipe (l := .id) (by decide) _ _))
        ((Pipeline.reg_rotate _ false .id).trans (Pipeline.reg_fetch_self e.pipe _ _)) rfl rfl

/-- The stages together. -/
theorem stages_cycle (done : stages vm cfg e = some e') : ∃ e₀ mem ex w₁ w₂, Cycle vm cfg e e' e₀ mem ex w₁ w₂ := by
  simp only [stages, Option.bind_eq_bind, Option.bind_eq_some_iff] at done
  obtain ⟨e₁, wrote, e₂, accessed, e₃, executed, e₅, fetched, same⟩ := done
  cases same
  obtain ⟨e₀, checks, world₀, diffCpu, diffInit, _, cpu₁, log₁, empty₁, latch₁, fetch₁, _⟩ := stageWB_spec wrote
  obtain ⟨mem, memory, keeps₂, mem₂, latch₂, fetch₂, log₂⟩ := stageMEM_spec accessed
  have empty₂ : (e₂.pipe.reg .wb).valid = false := by
    rw [latch₂ _ (by decide)]
    exact empty₁
  obtain ⟨ex, execute, keeps₃, log₃, ex₃, mem₃, empty₃, steer⟩ := stageEX_spec executed empty₂
  obtain ⟨world₄, keeps₄, log₄, latch₄, fetch₄, decode⟩ := stageID_spec e₃
  obtain ⟨keeps₅, log₅, latch₅, front⟩ := stageIF_spec fetched (by rw [latch₄ _ (by decide)]; exact empty₃)
  have keeps := (keeps₂.trans keeps₃).trans (keeps₄.trans keeps₅)
  have gpr : e₃.cpu.gpr = e.written.gpr := by
    rw [keeps₃.cpu, keeps₂.cpu, cpu₁]
  rw [latch₂ _ (by decide), latch₁ _ (by decide), fetch₂, fetch₁] at steer
  rw [gpr, mem₃, mem₂, ex₃, (Prod.mk.inj steer).1] at decode
  rw [world₄, (Prod.mk.inj decode).1, (Prod.mk.inj decode).2, fetch₄, (Prod.mk.inj steer).2] at front
  rw [latch₁ _ (by decide), world₀] at memory
  rw [latch₂ _ (by decide), latch₁ _ (by decide)] at execute
  refine ⟨e₀, mem, ex, e₂.world, e₃.world, checks, memory, execute, ?_, ?_, ?_, ?_, ?_, ?_, ?_⟩
  · rw [(Prod.mk.inj decode).2]
    exact front
  · change e₅.log = _
    rw [log₅, log₄, log₃, log₂, log₁, List.append_assoc]
    simp [cycleEvents, PipeReg.zero]
  · change (e₅.pipe.rotate _).reg .wb = mem
    rw [Pipeline.reg_rotate, Pipeline.source, latch₅ _ (by decide), latch₄ _ (by decide), mem₃, mem₂]
  · change (e₅.pipe.rotate _).reg .mem = ex
    rw [Pipeline.reg_rotate, Pipeline.source, latch₅ _ (by decide), latch₄ _ (by decide), ex₃]
  · exact keeps.cpu.trans cpu₁
  · exact keeps.diffCpu.trans diffCpu
  · exact keeps.diffInit.trans diffInit

/-- No stage fails if the memory access, the execution and the fetch of the cycle do not. -/
theorem stages_isSome (off : cfg.difftestEn = false)
    (access : (e.pipe.reg .mem).valid = true → (irMemAccessLat vm (e.pipe.reg .mem).ir e.world).isSome = true)
    (execute : ∀ mem w₁, MemStage vm (e.pipe.reg .mem) e.world mem w₁ → (e.pipe.reg .ex).valid = true →
      (irExecute (vm.perf w₁) (e.pipe.reg .ex).ir w₁.sys).isSome = true)
    (fetch : ∀ mem w₁ ex w₂, MemStage vm (e.pipe.reg .mem) e.world mem w₁ → ExStage vm (e.pipe.reg .ex) w₁ ex w₂ →
      (vm.ifetch w₂ (cfg.steer ex (e.pipe.reg .id) e.pipe.fetchPc).2 4).isSome = true) :
    ∃ e', stages vm cfg e = some e' := by
  obtain ⟨e₁, wrote⟩ : ∃ e₁, stageWB vm cfg e = some e₁ := by
    unfold stageWB difftestStep
    rw [off]
    simp only
    split <;> exact ⟨_, rfl⟩
  obtain ⟨e₀, checks, world₁, _, _, _, _, _, empty₁, latch₁, fetch₁, _⟩ := stageWB_spec wrote
  obtain rfl := checks.off off
  obtain ⟨e₂, accessed⟩ : ∃ e₂, stageMEM vm e₁ = some e₂ := by
    unfold stageMEM
    simp only
    rw [latch₁ _ (by decide), world₁]
    split
    · next valid =>
        obtain ⟨_, done⟩ := Option.isSome_iff_exists.mp (access valid)
        rw [done]
        exact ⟨_, rfl⟩
    · exact ⟨_, rfl⟩
  obtain ⟨mem, memory, _, _, latch₂, fetch₂, _⟩ := stageMEM_spec accessed
  rw [latch₁ _ (by decide), world₁] at memory
  obtain ⟨e₃, executed⟩ : ∃ e₃, stageEX vm cfg e₂ = some e₃ := by
    unfold stageEX
    simp only
    rw [latch₂ _ (by decide), latch₁ _ (by decide)]
    split
    · next valid =>
        obtain ⟨_, done⟩ := Option.isSome_iff_exists.mp (execute _ _ memory valid)
        rw [done]
        exact ⟨_, rfl⟩
    · exact ⟨_, rfl⟩
  have empty₂ : (e₂.pipe.reg .wb).valid = false := by
    rw [latch₂ _ (by decide)]
    exact empty₁
  obtain ⟨ex, execution, _, _, _, _, _, steer⟩ := stageEX_spec executed empty₂
  rw [latch₂ _ (by decide), latch₁ _ (by decide)] at execution
  rw [latch₂ _ (by decide), latch₁ _ (by decide), fetch₂, fetch₁] at steer
  obtain ⟨world₄, _, _, _, fetch₄, _⟩ := stageID_spec e₃
  obtain ⟨e₅, fetched⟩ : ∃ e₅, stageIF vm cfg (stageID e₃).2 (stageID e₃).1 = some e₅ := by
    unfold stageIF
    split
    · exact ⟨_, rfl⟩
    · simp only
      have pc : e₃.pipe.fetchPc = (cfg.steer ex (e₀.pipe.reg .id) e₀.pipe.fetchPc).2 := congrArg Prod.snd steer
      rw [world₄, fetch₄, pc]
      obtain ⟨_, done⟩ := Option.isSome_iff_exists.mp (fetch _ _ _ _ memory execution)
      rw [done]
      exact ⟨_, rfl⟩
  refine ⟨{ e₅ with pipe := e₅.pipe.rotate (stageID e₃).2 }, ?_⟩
  unfold stages
  rw [wrote]
  simp only [Option.bind_eq_bind, Option.bind_some, accessed, executed, fetched]

theorem pipelineCycleCore_cases (done : pipelineCycleCore vm cfg e = some e') :
    (∃ e₁ : Inorder σ β, stages vm cfg e = some e₁ ∧ e' = e₁.tick.syncInstret) ∨ e' = e.frozen.tick.syncInstret := by
  unfold pipelineCycleCore at done
  obtain ⟨e₁, ran, rfl⟩ := Option.map_eq_some_iff.mp done
  split at ran
  · cases ran
    exact .inr rfl
  · exact .inl ⟨e₁, ran, rfl⟩

end Inorder

end Sustemu
