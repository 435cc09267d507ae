import Sustemu.Inorder.Dual
import Sustemu.Ooo.Counting
import Mathlib.Data.Nat.ModEq

/-!
# Counters of two cores

`rdcycle` and `rdinstret` read two globals. Every `core_cycle` of either hart
advances the cycle count; the instruction count is what the hart that ran last
has put there. So a hart reads its own numbers only while the other hart has
not interfered.
-/

set_option autoImplicit false

namespace Sustemu

open Lib

/-! ## Reading a counter -/

/-- `read_csr(CYCLE)`. -/
def rdcycle (perf : Perf) (sys : Sys) : Option Word := (readCsr perf sys 0xc00).map Prod.fst

/-- `read_csr(INSTRET)`. -/
def rdinstret (perf : Perf) (sys : Sys) : Option Word := (readCsr perf sys 0xc02).map Prod.fst

/-- Every privilege level may read the counters. -/
theorem privCheck_counter (sys : Sys) {no : Nat} (counter : no = 0xc00 ∨ no = 0xc02) : privCheck sys no false = (true, sys) := by
  have level : ¬sys.privLevel < userLevel := BitVec.not_lt_zero
  rcases counter with rfl | rfl <;> simp [privCheck, csrTable, level]

theorem rdcycle_eq (perf : Perf) (sys : Sys) : rdcycle perf sys = some sys.simCycles := by
  unfold rdcycle readCsr
  rw [privCheck_counter sys (.inl rfl)]
  rfl

theorem rdinstret_eq (perf : Perf) (sys : Sys) : rdinstret perf sys = some sys.simInstret := by
  unfold rdinstret readCsr
  rw [privCheck_counter sys (.inr rfl)]
  rfl

/-! ## Turns -/

/-- The turns that hart `h` had. -/
def turnsOf (h : Fin 2) (schedule : List (Fin 2)) : Nat := schedule.count h

theorem turns_eq (h : Fin 2) (schedule : List (Fin 2)) :
    schedule.length = turnsOf h schedule + turnsOf (otherHart h) schedule := by
  induction schedule with
  | nil => rfl
  | cons first rest ih =>
      unfold turnsOf at ih ⊢
      rw [List.length_cons, List.count_cons, List.count_cons, ih]
      have cases : ∀ h first : Fin 2, (if first == h then 1 else 0) + (if first == otherHart h then 1 else 0) = 1 := by decide
      have one := cases h first
      omega

theorem word_eq_iff (a b : Nat) : (BitVec.ofNat 64 a = BitVec.ofNat 64 b) ↔ a ≡ b [MOD 2 ^ 64] := by
  rw [← BitVec.toNat_inj, BitVec.toNat_ofNat, BitVec.toNat_ofNat]
  rfl

/-- A count that both harts share is the hart's own as long as the other one has had no turn. -/
theorem shared_eq_own_iff (h : Fin 2) (schedule : List (Fin 2)) :
    (BitVec.ofNat 64 schedule.length = BitVec.ofNat 64 (turnsOf h schedule)) ↔
      2 ^ 64 ∣ turnsOf (otherHart h) schedule := by
  rw [word_eq_iff, turns_eq h, Nat.add_modEq_left_iff]

/-- What a pipelined engine leaves in the globals: the turns of both harts, and the instructions that the hart which
ran last has retired. -/
structure CountedBy (schedule : List (Fin 2)) (retired : Fin 2 → Nat) (sys : Sys) : Prop where
  cycles : sys.simCycles = BitVec.ofNat 64 schedule.length
  instret : sys.simInstret = BitVec.ofNat 64 ((schedule.getLast?.map retired).getD 0)
  fresh : schedule = [] → ∀ h, retired h = 0

theorem CountedBy.turn {schedule : List (Fin 2)} {retired retired' : Fin 2 → Nat} {sys sys' : Sys} {h : Fin 2}
    (counted : CountedBy schedule retired sys) (cycles : sys'.simCycles = sys.simCycles + 1)
    (instret : sys'.simInstret = BitVec.ofNat 64 (retired' h)) : CountedBy (schedule ++ [h]) retired' sys' where
  cycles := by
    rw [cycles, counted.cycles, List.length_append, BitVec.ofNat_add]
    rfl
  instret := by
    rw [instret, List.getLast?_append_of_ne_nil _ (List.cons_ne_nil _ _)]
    rfl
  fresh := fun empty => absurd empty (by simp)

/-- When hart `h` reads its own cycles and its own instructions. -/
theorem CountedBy.reads_iff {schedule : List (Fin 2)} {retired : Fin 2 → Nat} {sys : Sys}
    (counted : CountedBy schedule retired sys) (perf : Perf) (h : Fin 2) :
    (rdcycle perf sys = some (BitVec.ofNat 64 (turnsOf h schedule)) ↔ 2 ^ 64 ∣ turnsOf (otherHart h) schedule) ∧
    (rdinstret perf sys = some (BitVec.ofNat 64 (retired h)) ↔
      (schedule.getLast? = some (otherHart h) → retired (otherHart h) ≡ retired h [MOD 2 ^ 64])) := by
  rw [rdcycle_eq, rdinstret_eq, Option.some_inj, Option.some_inj, counted.cycles, counted.instret, shared_eq_own_iff,
    word_eq_iff]
  refine ⟨.rfl, ?_⟩
  cases last : schedule.getLast? with
  | none =>
      rw [List.getLast?_eq_none_iff] at last
      have zero := counted.fresh last h
      simp [zero, Nat.ModEq]
  | some hart =>
      by_cases same : hart = h
      · subst same
        simp [Nat.ModEq, Ne.symm (otherHart_ne hart)]
      · have other := eq_otherHart same
        simp [other]

/-! ## Functional mode -/

/-- A `Core` in functional mode. -/
structure FunctionalCore where
  arch : CoreArch
  simCycles : Nat
  simInstret : Nat

structure FunctionalDual (σ : Type) where
  core : Fin 2 → FunctionalCore
  world : World σ

namespace FunctionalDual

variable {σ : Type} (vm : VMem σ)

/-- The machine once the context of hart `h` is installed. -/
def machine (m : FunctionalDual σ) (h : Fin 2) : Machine σ :=
  ⟨(m.core h).arch.cpu, { m.world with sys := (m.core h).arch.install h m.world.sys }⟩

/-- The context of hart `h` is saved after its cycle. -/
def save (m : FunctionalDual σ) (h : Fin 2) (after : Machine σ) : FunctionalDual σ where
  core := setAt m.core h
    ⟨.save after.cpu after.world.sys, (m.core h).simCycles + 1, (m.core h).simInstret + 1⟩
  world := after.world

/-- `core_cycle` in functional mode, for a hart and what the stack holds: `exec_once_core` does what `exec_once` does. -/
def coreCycle (m : FunctionalDual σ) (turn : Fin 2 × IRInst) : Option (FunctionalDual σ) :=
  (execOnce vm turn.2 (m.machine turn.1)).map fun (_, after) => m.save turn.1 after

def run (turns : List (Fin 2 × IRInst)) (m : FunctionalDual σ) : Option (FunctionalDual σ) :=
  turns.foldlM (coreCycle vm) m

/-- `core_create` for both harts, from any registers. -/
def init (arch : Fin 2 → CoreArch) (world : World σ) : FunctionalDual σ := ⟨fun h => ⟨arch h, 0, 0⟩, world⟩

/-- The next `core_cycle` of hart `h` calls `ir_execute` against the globals `sys`. -/
def Executes (m : FunctionalDual σ) (h : Fin 2) (sys : Sys) : Prop :=
  let pc := (m.machine h).cpu.pc
  let fetchWorld := { m.world with sys := (pmpCheck (m.machine h).world.sys pc true false).2 }
  ∃ raw w, vm.ifetch fetchWorld pc 4 = some (raw, w) ∧ sys = w.sys

variable {vm} {m m' : FunctionalDual σ}

/-- The globals count the turns of both harts. -/
structure Counted (schedule : List (Fin 2)) (m : FunctionalDual σ) : Prop where
  cycles : m.world.sys.simCycles = BitVec.ofNat 64 schedule.length
  instret : m.world.sys.simInstret = BitVec.ofNat 64 schedule.length

variable (reports : vm.Reports)

include reports in
theorem Executes.fixed {h : Fin 2} {sys : Sys} (executes : m.Executes vm h sys) :
    sys.simCycles = m.world.sys.simCycles ∧ sys.simInstret = m.world.sys.simInstret := by
  obtain ⟨raw, w, fetched, rfl⟩ := executes
  have kept := (reports.ifetch fetched).fixed.trans (pmpCheck_fixed ..)
  exact ⟨congrArg (·.2.1) kept, congrArg (·.2.2) kept⟩

include reports in
theorem Counted.coreCycle {schedule : List (Fin 2)} (counted : m.Counted schedule) {turn : Fin 2 × IRInst}
    (done : m.coreCycle vm turn = some m') : m'.Counted (schedule ++ [turn.1]) := by
  obtain ⟨⟨ir, after⟩, executed, rfl⟩ := Option.map_eq_some_iff.mp done
  obtain ⟨raw, w, ir₁, sys, w', fetched, ran, accessed, rfl⟩ := execOnce_steps executed
  have before : (m.machine turn.1).world.sys.fixed = (turn.1, m.world.sys.simCycles, m.world.sys.simInstret) := rfl
  have kept : w'.sys.fixed = (m.machine turn.1).world.sys.fixed :=
    (Engine.irMemAccess_fixed reports accessed).trans ((irExecute_fixed ran).trans
      ((reports.ifetch fetched).fixed.trans (pmpCheck_fixed ..)))
  rw [before] at kept
  constructor
  · change w'.sys.simCycles + 1 = _
    rw [show w'.sys.simCycles = _ from congrArg (·.2.1) kept, counted.cycles, List.length_append, BitVec.ofNat_add]
    rfl
  · change w'.sys.simInstret + 1 = _
    rw [show w'.sys.simInstret = _ from congrArg (·.2.2) kept, counted.instret, List.length_append, BitVec.ofNat_add]
    rfl

include reports in
theorem Counted.run {schedule : List (Fin 2)} (counted : m.Counted schedule) {turns : List (Fin 2 × IRInst)}
    (done : m.run vm turns = some m') : m'.Counted (schedule ++ turns.map Prod.fst) := by
  induction turns generalizing m schedule with
  | nil =>
      cases done
      rw [List.map_nil, List.append_nil]
      exact counted
  | cons turn rest ih =>
      obtain ⟨m₁, stepped, done⟩ := Option.bind_eq_some_iff.mp done
      rw [List.map_cons, List.append_cons]
      exact ih (counted.coreCycle reports stepped) done

end FunctionalDual

/-! ## In-order mode -/

namespace Inorder

variable {σ β : Type} {vm : VMem σ} {cfg : PipeConfig β} {e e' e'' : Inorder σ β}

/-- The global counters stay, and the statistics count the instructions retired. -/
structure Steady (e e' : Inorder σ β) : Prop where
  fixed : e'.world.sys.fixed = e.world.sys.fixed
  insts : e'.stats.insts + (retiredOf e.log).length = e.stats.insts + (retiredOf e'.log).length

theorem Steady.refl (e : Inorder σ β) : e.Steady e := ⟨rfl, rfl⟩

theorem Steady.trans (first : e.Steady e') (second : e'.Steady e'') : e.Steady e'' := by
  obtain ⟨fixed₁, insts₁⟩ := first
  obtain ⟨fixed₂, insts₂⟩ := second
  exact ⟨fixed₂.trans fixed₁, by omega⟩

/-- Nothing is retired. -/
theorem Steady.of_quiet (fixed : e'.world.sys.fixed = e.world.sys.fixed) (stats : e'.stats.insts = e.stats.insts)
    (log : retiredOf e'.log = retiredOf e.log) : e.Steady e' := ⟨fixed, by rw [stats, log]⟩

section Reports

variable (reports : vm.Reports)

include reports in
theorem difftestStep_steady {committed : IRInst} (done : e.difftestStep vm cfg committed = some e') : e.Steady e' := by
  unfold difftestStep at done
  split at done
  · simp only at done
    split at done
    · cases done
    · obtain ⟨⟨ir, world⟩, checked, done⟩ := Option.bind_eq_some_iff.mp done
      unfold difftestRef at checked
      obtain ⟨⟨ir₁, sys⟩, executed, accessed⟩ := Option.bind_eq_some_iff.mp checked
      have kept : world.sys.fixed = e.world.sys.fixed :=
        (Engine.irMemAccess_fixed reports accessed).trans (irExecute_fixed executed)
      simp only at done
      split at done
      · split at done
        · cases done
          exact .of_quiet kept rfl rfl
        · split at done
          · cases done
          · cases done
            exact .of_quiet kept rfl rfl
      · cases done
        exact .of_quiet kept rfl rfl
  · cases done
    exact .refl e

include reports in
theorem stageWB_steady (done : stageWB vm cfg e = some e') : e.Steady e' := by
  unfold stageWB at done
  simp only at done
  split at done
  · obtain ⟨e₁, checked, rfl⟩ := Option.map_eq_some_iff.mp done
    obtain ⟨fixed, insts⟩ := difftestStep_steady reports checked
    refine ⟨fixed, ?_⟩
    change e₁.stats.insts + 1 + _ = _ + (retiredOf (e₁.log ++ [_])).length
    rw [retiredOf_append, List.length_append]
    change _ = _ + (_ + 1)
    omega
  · cases done
    exact .refl e

theorem accessed_steady (e : Inorder σ β) (ir : IRInst) : e.Steady (e.accessed ir) := by
  unfold accessed
  split
  · refine .of_quiet rfl rfl ?_
    change retiredOf (e.log ++ [_]) = _
    rw [retiredOf_append]
    exact List.append_nil _
  · exact .refl e

theorem missed_steady (e : Inorder σ β) (ir : IRInst) (lat : Nat) : e.Steady (e.missed ir lat) := by
  unfold missed
  split
  · exact .of_quiet rfl rfl rfl
  · exact .refl e

include reports in
theorem stageMEM_steady (done : stageMEM vm e = some e') : e.Steady e' := by
  unfold stageMEM at done
  simp only at done
  split at done
  · obtain ⟨⟨ir, lat, world⟩, accessed, rfl⟩ := Option.map_eq_some_iff.mp done
    have kept : world.sys.fixed = e.world.sys.fixed := by
      unfold irMemAccessLat at accessed
      split at accessed
      · obtain ⟨⟨level, raw, w⟩, read, same⟩ := Option.map_eq_some_iff.mp accessed
        cases same
        exact (reports.readLevel read).fixed
      · obtain ⟨w, written, same⟩ := Option.map_eq_some_iff.mp accessed
        cases same
        exact (reports.write written).fixed
      · cases accessed
        rfl
    have moved : e.Steady { e with world := world, pipe := e.pipe.set .mem { e.pipe.reg .mem with ir := ir } } :=
      .of_quiet kept rfl rfl
    exact moved.trans ((accessed_steady _ _).trans (missed_steady _ _ _))
  · cases done
    exact .refl e

theorem resolved_steady (e : Inorder σ β) (ir : IRInst) : e.Steady (e.resolved cfg ir) := by
  have learned : e.Steady (if controlOpcode ir.raw then { e with bpred := cfg.bpred.update e.bpred ir } else e) := by
    split
    · exact .of_quiet rfl rfl rfl
    · exact .refl e
  unfold resolved
  split
  · refine learned.trans ?_
    dsimp only
    generalize (if controlOpcode ir.raw then { e with bpred := cfg.bpred.update e.bpred ir } else e) = taught
    split
    · exact .of_quiet rfl rfl rfl
    · exact .refl _
  · split
    · exact .of_quiet rfl rfl rfl
    · exact .refl e

theorem stageEX_steady (done : stageEX vm cfg e = some e') : e.Steady e' := by
  unfold stageEX at done
  simp only at done
  split at done
  · obtain ⟨⟨ir, sys⟩, executed, rfl⟩ := Option.map_eq_some_iff.mp done
    have kept : (if ir.fault then sys.abort else sys).fixed = e.world.sys.fixed := by
      rw [← irExecute_fixed executed]
      split <;> rfl
    refine Steady.trans ?_ (resolved_steady _ _)
    exact .of_quiet kept rfl rfl
  · cases done
    exact .refl e

theorem stageID_steady (e : Inorder σ β) : e.Steady (stageID e).1 := by
  unfold stageID
  simp only
  split
  · split
    · exact .of_quiet rfl rfl rfl
    · exact .of_quiet rfl rfl rfl
  · exact .refl e

include reports in
theorem stageIF_steady {stalled : Bool} (done : stageIF vm cfg stalled e = some e') : e.Steady e' := by
  unfold stageIF at done
  split at done
  · cases done
    exact .refl e
  · obtain ⟨⟨word, world⟩, fetched, rfl⟩ := Option.map_eq_some_iff.mp done
    exact .of_quiet (reports.ifetch fetched).fixed rfl rfl

include reports in
theorem stages_steady (done : stages vm cfg e = some e') : e.Steady e' := by
  unfold stages at done
  obtain ⟨e₁, wb, done⟩ := Option.bind_eq_some_iff.mp done
  obtain ⟨e₂, mem, done⟩ := Option.bind_eq_some_iff.mp done
  obtain ⟨e₃, ex, done⟩ := Option.bind_eq_some_iff.mp done
  obtain ⟨e₄, fetched, done⟩ := Option.bind_eq_some_iff.mp done
  cases done
  have back := (stageWB_steady reports wb).trans ((stageMEM_steady reports mem).trans (stageEX_steady ex))
  have front := (stageID_steady e₃).trans (stageIF_steady reports fetched)
  exact back.trans (front.trans (.of_quiet rfl rfl rfl))

include reports in
/-- A cycle advances the counters once, at its end. -/
theorem pipelineCycleCore_counts (done : pipelineCycleCore vm cfg e = some e') :
    ∃ last, e.Steady last ∧ e' = last.tick.syncInstret := by
  obtain ⟨last, ran, rfl⟩ := Option.map_eq_some_iff.mp done
  refine ⟨last, ?_, rfl⟩
  split at ran
  · cases ran
    exact .of_quiet rfl rfl rfl
  · exact stages_steady reports ran

end Reports

end Inorder

namespace InorderDual

variable {σ β : Type} (vm : VMem σ) (cfg : PipeConfig β)

/-- The instructions that hart `h` has retired. -/
def retired (m : InorderDual σ β) (h : Fin 2) : Nat := (retiredOf (logOf h m.log)).length

/-- The next `core_cycle` of hart `h` calls `ir_execute` against the globals `sys`. -/
def Executes (m : InorderDual σ β) (h : Fin 2) (sys : Sys) : Prop :=
  (m.engine h).pipe.memStallRem = 0 ∧ ∃ e₁ e₂, Inorder.stageWB vm cfg (m.engine h) = some e₁ ∧
    Inorder.stageMEM vm e₁ = some e₂ ∧ (e₂.pipe.reg .ex).valid = true ∧ sys = e₂.world.sys

/-- The globals and the statistics of each hart are right for a run. -/
structure Counted (schedule : List (Fin 2)) (m : InorderDual σ β) : Prop where
  globals : CountedBy schedule m.retired m.world.sys
  stats : ∀ h, (m.core h).stats.insts = m.retired h

variable {vm cfg} {m m' : InorderDual σ β} (reports : vm.Reports)

include reports in
theorem Executes.fixed {h : Fin 2} {sys : Sys} (executes : m.Executes vm cfg h sys) :
    sys.simCycles = m.world.sys.simCycles ∧ sys.simInstret = m.world.sys.simInstret := by
  obtain ⟨_, e₁, e₂, wb, mem, _, rfl⟩ := executes
  have kept := ((Inorder.stageWB_steady reports wb).trans (Inorder.stageMEM_steady reports mem)).fixed
  exact ⟨congrArg (·.2.1) kept, congrArg (·.2.2) kept⟩

include reports in
theorem Counted.coreCycle {schedule : List (Fin 2)} (counted : m.Counted schedule) {h : Fin 2}
    (done : m.coreCycle vm cfg h = some m') : m'.Counted (schedule ++ [h]) := by
  obtain ⟨e, cycled, rfl⟩ := Option.map_eq_some_iff.mp done
  obtain ⟨last, ⟨fixed, insts⟩, rfl⟩ := Inorder.pipelineCycleCore_counts reports cycled
  have own : (m.save h last.tick.syncInstret).retired h = last.stats.insts := by
    unfold retired save
    rw [logOf_append, logOf_self, retiredOf_append, List.length_append]
    change last.stats.insts = (m.core h).stats.insts + (retiredOf last.log).length at insts
    rw [counted.stats h] at insts
    exact insts.symm
  refine ⟨counted.globals.turn ?_ ?_, fun h' => ?_⟩
  · change last.world.sys.simCycles + 1 = _
    rw [show last.world.sys.simCycles = m.world.sys.simCycles from congrArg (·.2.1) fixed]
  · rw [own]
    rfl
  · by_cases same : h' = h
    · subst same
      rw [own]
      change (setAt m.core h' _ h').stats.insts = _
      rw [setAt_self]
      rfl
    · have untouched : (m.save h last.tick.syncInstret).retired h' = m.retired h' := by
        unfold retired save
        rw [logOf_append, logOf_other same, List.append_nil]
      rw [untouched, ← counted.stats h']
      change (setAt m.core h _ h').stats.insts = _
      rw [setAt_of_ne same]

include reports in
theorem Counted.run {schedule turns : List (Fin 2)} (counted : m.Counted schedule) (done : m.run vm cfg turns = some m') :
    m'.Counted (schedule ++ turns) := by
  induction turns generalizing m schedule with
  | nil =>
      cases done
      rw [List.append_nil]
      exact counted
  | cons turn rest ih =>
      obtain ⟨m₁, stepped, done⟩ := Option.bind_eq_some_iff.mp done
      rw [List.append_cons]
      exact ih (counted.coreCycle reports stepped) done

end InorderDual

/-! ## Out-of-order mode -/

namespace OooDual

variable {σ β : Type} (vm : VMem σ) (cfg : OooConfig β)

/-- The instructions that hart `h` has retired. -/
def retired (m : OooDual σ β) (h : Fin 2) : Nat := (commits (m.core h).log).length

/-- The next `core_cycle` of hart `h` calls `ir_execute` against the globals `sys`, in the unit that executes CSR
instructions. -/
def Executes (m : OooDual σ β) (h : Fin 2) (sys : Sys) : Prop :=
  ∃ e₁ e₂ e₃ before s after, (m.engine h).drainStoreBuf vm cfg = some e₁ ∧ e₁.stageCommit vm cfg = some e₂ ∧
    EU.int.slots = before ++ s :: after ∧
    Engine.unit (Engine.intSlot vm cfg) before { e₂ with ooo := e₂.ooo.mshrTick } = some e₃ ∧
    (e₃.ooo.latch .int s).valid = true ∧ (e₃.ooo.rob (e₃.ooo.latch .int s).robIdx).valid = true ∧ sys = e₃.world.sys

/-- The globals and the statistics of each hart are right for a run. -/
structure Counted (schedule : List (Fin 2)) (m : OooDual σ β) : Prop where
  globals : CountedBy schedule m.retired m.world.sys
  stats : ∀ h, (m.core h).stats.insts = m.retired h

variable {vm cfg} {m m' : OooDual σ β} (reports : vm.Reports)

include reports in
theorem Executes.fixed {h : Fin 2} {sys : Sys} (executes : m.Executes vm cfg h sys) :
    sys.simCycles = m.world.sys.simCycles ∧ sys.simInstret = m.world.sys.simInstret := by
  obtain ⟨e₁, e₂, e₃, before, s, after, drained, committed, _, executed, _, _, rfl⟩ := executes
  have units := (Engine.unit_quiet Engine.intSlot_quiet executed).fixed
  have kept := units.trans ((Engine.drainStoreBuf_steady reports drained).trans (Engine.stageCommit_steady reports committed)).fixed
  exact ⟨congrArg (·.2.1) kept, congrArg (·.2.2) kept⟩

include reports in
theorem Counted.coreCycle {schedule : List (Fin 2)} (counted : m.Counted schedule) {h : Fin 2}
    (done : m.coreCycle vm cfg h = some m') : m'.Counted (schedule ++ [h]) := by
  obtain ⟨e, cycled, rfl⟩ := Option.map_eq_some_iff.mp done
  obtain ⟨_, _, last, _, _, before, after, rfl⟩ := Engine.cycle_counts reports cycled
  obtain ⟨fixed, insts⟩ := before.trans after.steady
  have own : (m.save h last.tick).retired h = last.stats.insts := by
    unfold retired save
    simp only [setAt_self]
    change last.stats.insts + m.retired h = (m.core h).stats.insts + (commits last.log).length at insts
    rw [counted.stats h] at insts
    change (commits last.log).length = _
    omega
  refine ⟨counted.globals.turn ?_ ?_, fun h' => ?_⟩
  · change last.world.sys.simCycles + 1 = _
    rw [show last.world.sys.simCycles = m.world.sys.simCycles from congrArg (·.2.1) fixed]
  · rw [own]
    rfl
  · by_cases same : h' = h
    · subst same
      rw [own]
      change (setAt m.core h' _ h').stats.insts = _
      rw [setAt_self]
      rfl
    · have untouched : (m.save h last.tick).core h' = m.core h' := setAt_of_ne same _ _
      unfold retired
      rw [untouched]
      exact counted.stats h'

include reports in
theorem Counted.run {schedule turns : List (Fin 2)} (counted : m.Counted schedule) (done : m.run vm cfg turns = some m') :
    m'.Counted (schedule ++ turns) := by
  induction turns generalizing m schedule with
  | nil =>
      cases done
      rw [List.append_nil]
      exact counted
  | cons turn rest ih =>
      obtain ⟨m₁, stepped, done⟩ := Option.bind_eq_some_iff.mp done
      rw [List.append_cons]
      exact ih (counted.coreCycle reports stepped) done

end OooDual

/-! ## All modes -/

/-- When the counters a hart reads in its next `core_cycle` are its own, after any run. -/
theorem own_counters_iff {δ β γ : Type} (mem : MemConfig δ) (arch : Fin 2 → CoreArch) (pmem : ByteMem) (dev : δ) (h : Fin 2)
    (perf : Perf) (sys : Sys) :
    (∀ (turns : List (Fin 2 × IRInst)) m,
      (FunctionalDual.init arch ⟨Sys.init, MemState.init pmem dev⟩).run (hierarchy mem) turns = some m →
      m.Executes (hierarchy mem) h sys →
        let schedule := turns.map Prod.fst
        (rdcycle perf sys = some (BitVec.ofNat 64 (turnsOf h schedule)) ↔ 2 ^ 64 ∣ turnsOf (otherHart h) schedule) ∧
        (rdinstret perf sys = some (BitVec.ofNat 64 (turnsOf h schedule)) ↔ 2 ^ 64 ∣ turnsOf (otherHart h) schedule)) ∧
    (∀ (cfg : PipeConfig β) (bpred : Fin 2 → β) (schedule : List (Fin 2)) m,
      (InorderDual.init cfg arch ⟨Sys.init, MemState.init pmem dev⟩ bpred).run (hierarchy mem) cfg schedule = some m →
      m.Executes (hierarchy mem) cfg h sys →
        (rdcycle perf sys = some (BitVec.ofNat 64 (turnsOf h schedule)) ↔ 2 ^ 64 ∣ turnsOf (otherHart h) schedule) ∧
        (rdinstret perf sys = some (BitVec.ofNat 64 (m.retired h)) ↔
          (schedule.getLast? = some (otherHart h) → m.retired (otherHart h) ≡ m.retired h [MOD 2 ^ 64]))) ∧
    (∀ (cfg : OooConfig γ) (bpred : Fin 2 → γ) (schedule : List (Fin 2)) m,
      (OooDual.init cfg arch ⟨Sys.init, MemState.init pmem dev⟩ bpred).run (hierarchy mem) cfg schedule = some m →
      m.Executes (hierarchy mem) cfg h sys →
        (rdcycle perf sys = some (BitVec.ofNat 64 (turnsOf h schedule)) ↔ 2 ^ 64 ∣ turnsOf (otherHart h) schedule) ∧
        (rdinstret perf sys = some (BitVec.ofNat 64 (m.retired h)) ↔
          (schedule.getLast? = some (otherHart h) → m.retired (otherHart h) ≡ m.retired h [MOD 2 ^ 64]))) := by
  have reports := hierarchy_reports mem
  refine ⟨fun turns m done executes => ?_, fun cfg bpred schedule m done executes => ?_,
    fun cfg bpred schedule m done executes => ?_⟩
  · obtain ⟨cycles, instret⟩ := executes.fixed reports
    have start : (FunctionalDual.init arch ⟨Sys.init, MemState.init pmem dev⟩).Counted [] := ⟨rfl, rfl⟩
    have counted := start.run reports done
    rw [List.nil_append] at counted
    simp only [rdcycle_eq, rdinstret_eq, cycles, instret, counted.cycles, counted.instret, Option.some_inj]
    exact ⟨shared_eq_own_iff h _, shared_eq_own_iff h _⟩
  · obtain ⟨cycles, instret⟩ := executes.fixed reports
    have start : (InorderDual.init cfg arch ⟨Sys.init, MemState.init pmem dev⟩ bpred).Counted [] :=
      ⟨⟨rfl, rfl, fun _ _ => rfl⟩, fun _ => rfl⟩
    have globals := (start.run reports done).globals
    rw [List.nil_append] at globals
    exact CountedBy.reads_iff ⟨cycles.trans globals.cycles, instret.trans globals.instret, globals.fresh⟩ perf h
  · obtain ⟨cycles, instret⟩ := executes.fixed reports
    have start : (OooDual.init cfg arch ⟨Sys.init, MemState.init pmem dev⟩ bpred).Counted [] :=
      ⟨⟨rfl, rfl, fun _ _ => rfl⟩, fun _ => rfl⟩
    have globals := (start.run reports done).globals
    rw [List.nil_append] at globals
    exact CountedBy.reads_iff ⟨cycles.trans globals.cycles, instret.trans globals.instret, globals.fresh⟩ perf h

/-- `rdcycle x5`, again and again. -/
def counterProgram : List Raw := List.replicate 4 0xc00022f3

/-- Hart 0 alone reads its four cycles. -/
theorem own_counters_iff_alone : ∃ m sys, OooDual.bootRun counterProgram [0, 0, 0, 0] = some m ∧
    m.Executes (hierarchy (.plain 2)) .duo 0 sys ∧ rdcycle .zero sys = some 4 := by
  have ran : (OooDual.bootRun counterProgram [0, 0, 0, 0]).any (fun m =>
      ((m.engine 0).drainStoreBuf (hierarchy (.plain 2)) .duo).any fun e₁ =>
        (e₁.stageCommit (hierarchy (.plain 2)) .duo).any fun e₂ =>
          (e₂.ooo.mshrTick.latch .int 0).valid && (e₂.ooo.mshrTick.rob (e₂.ooo.mshrTick.latch .int 0).robIdx).valid) = true := by
    decide +kernel
  obtain ⟨m, done, rest⟩ := (Option.any_eq_true _ _).mp ran
  obtain ⟨e₁, drained, rest⟩ := (Option.any_eq_true _ _).mp rest
  obtain ⟨e₂, committed, holds⟩ := (Option.any_eq_true _ _).mp rest
  obtain ⟨valid, live⟩ := (Bool.and_eq_true _ _).mp holds
  have executes : m.Executes (hierarchy (.plain 2)) .duo 0 e₂.world.sys :=
    ⟨e₁, e₂, { e₂ with ooo := e₂.ooo.mshrTick }, [], 0, [1], drained, committed, rfl, rfl, valid, live, rfl⟩
  refine ⟨m, e₂.world.sys, done, executes, ?_⟩
  have iff := @own_counters_iff Unit Unit Unit (.plain 2) (fun _ => .save ⟨.empty, mbase⟩ Sys.init) (image counterProgram) () 0
    .zero e₂.world.sys
  exact (iff.2.2 .duo (fun _ => ()) [0, 0, 0, 0] m done executes).1.mpr (Nat.dvd_zero _)

/-- Hart 1 has run no cycle, but reads the cycle that hart 0 has run. -/
theorem rdcycle_counts_other : ∃ m sys m', (FunctionalDual.init (fun _ => .save ⟨.empty, mbase⟩ Sys.init)
      ⟨Sys.init, MemState.init (image counterProgram) ()⟩).run (hierarchy (.plain 2)) [(0, .zero)] = some m ∧
    m.Executes (hierarchy (.plain 2)) 1 sys ∧ turnsOf 1 [0] = 0 ∧ rdcycle .zero sys = some 1 ∧
    m.coreCycle (hierarchy (.plain 2)) (1, .zero) = some m' ∧ (m'.core 1).arch.cpu.gpr.get 5 = 1 := by
  have ran : ((FunctionalDual.init (fun _ => .save ⟨.empty, mbase⟩ Sys.init)
      ⟨Sys.init, MemState.init (image counterProgram) ()⟩).run (hierarchy (.plain 2)) [(0, .zero)]).any (fun m =>
        ((hierarchy (.plain 2)).ifetch { m.world with
            sys := (pmpCheck (m.machine 1).world.sys (m.machine 1).cpu.pc true false).2 } (m.machine 1).cpu.pc 4).any
              (fun (_, w) => rdcycle .zero w.sys == some 1) &&
          (m.coreCycle (hierarchy (.plain 2)) (1, .zero)).any fun m' => (m'.core 1).arch.cpu.gpr.get 5 == 1) = true := by
    decide +kernel
  obtain ⟨m, done, rest⟩ := (Option.any_eq_true _ _).mp ran
  obtain ⟨executes, steps⟩ := (Bool.and_eq_true _ _).mp rest
  obtain ⟨⟨raw, w⟩, fetched, counted⟩ := (Option.any_eq_true _ _).mp executes
  obtain ⟨m', stepped, read⟩ := (Option.any_eq_true _ _).mp steps
  exact ⟨m, w.sys, m', done, ⟨raw, w, fetched, rfl⟩, rfl, beq_iff_eq.mp counted, stepped, beq_iff_eq.mp read⟩

end Sustemu
