import Sustemu.Ooo.ControlFlow

/-!
# What a cycle counts

Within a cycle no stage changes the global counters, and the instruction count
of the statistics goes up with each commit.
-/

set_option autoImplicit false

namespace Sustemu

open Lib

/-- The lines that commit attempts have written. -/
def logged {σ : Type} (log : List (Event σ)) : List (Word × Raw) :=
  log.filterMap fun event =>
    match event with
    | .logLine pc raw => some (pc, raw)
    | _ => none

theorem logged_append {σ : Type} (log extra : List (Event σ)) : logged (log ++ extra) = logged log ++ logged extra :=
  List.filterMap_append ..

theorem logged_quiet {σ : Type} (log : List (Event σ)) {extra : List (Event σ)}
    (quiet : ∀ event ∈ extra, ∀ pc raw, event ≠ .logLine pc raw) : logged (log ++ extra) = logged log := by
  have none : logged extra = [] := by
    apply List.filterMap_eq_nil_iff.mpr
    intro event member
    cases event with
    | logLine pc raw => exact absurd rfl (quiet _ member pc raw)
    | pop | commit | fill | drain | mismatch => rfl
  rw [logged_append, none, List.append_nil]

namespace Engine

variable {σ β : Type} {vm : VMem σ} {cfg : OooConfig β} {e e' e'' : Engine σ β}

/-- The global counters stay, and the statistics count the commits. -/
structure Steady (e e' : Engine σ β) : Prop where
  fixed : e'.world.sys.fixed = e.world.sys.fixed
  insts : e'.stats.insts + (commits e.log).length = e.stats.insts + (commits e'.log).length

theorem Steady.refl (e : Engine σ β) : e.Steady e := ⟨rfl, rfl⟩

theorem Steady.trans (first : e.Steady e') (second : e'.Steady e'') : e.Steady e'' := by
  obtain ⟨fixed₁, insts₁⟩ := first
  obtain ⟨fixed₂, insts₂⟩ := second
  exact ⟨fixed₂.trans fixed₁, by omega⟩

/-- Nothing is committed. -/
theorem Steady.of_quiet (fixed : e'.world.sys.fixed = e.world.sys.fixed) (stats : e'.stats.insts = e.stats.insts)
    (log : commits e'.log = commits e.log) : e.Steady e' := ⟨fixed, by rw [stats, log]⟩

theorem commits_emit {event : Event σ} (other : ∀ entry value, event ≠ .commit entry value) :
    commits (e.log ++ [event]) = commits e.log := by
  rw [commits_append]
  cases event with
  | commit entry value => exact absurd rfl (other entry value)
  | _ => exact List.append_nil _

/-- A step that commits nothing and traces nothing. -/
structure Quiet (e e' : Engine σ β) : Prop where
  fixed : e'.world.sys.fixed = e.world.sys.fixed
  insts : e'.stats.insts = e.stats.insts
  commits : commits e'.log = commits e.log
  cpu : e'.cpu = e.cpu
  logged : logged e'.log = logged e.log
  tcIr : e'.tcIr = e.tcIr

theorem Quiet.refl (e : Engine σ β) : e.Quiet e := ⟨rfl, rfl, rfl, rfl, rfl, rfl⟩

theorem Quiet.trans (first : e.Quiet e') (second : e'.Quiet e'') : e.Quiet e'' :=
  ⟨second.fixed.trans first.fixed, second.insts.trans first.insts, second.commits.trans first.commits,
    second.cpu.trans first.cpu, second.logged.trans first.logged, second.tcIr.trans first.tcIr⟩

theorem Quiet.steady (quiet : e.Quiet e') : e.Steady e' := .of_quiet quiet.fixed quiet.insts quiet.commits

/-! ## Back end -/

section Reports

variable (reports : vm.Reports)

include reports in
theorem drainStoreBuf_steady (done : e.drainStoreBuf vm cfg = some e') : e.Steady e' := by
  unfold drainStoreBuf at done
  simp only at done
  split at done
  · cases done
    exact .refl e
  · split at done
    · cases done
      exact .of_quiet rfl rfl rfl
    · obtain ⟨world, written, rfl⟩ := Option.map_eq_some_iff.mp done
      exact .of_quiet (reports.write written).fixed rfl (commits_emit (e := e) (by simp))

include reports in
theorem irMemAccess_fixed {ir ir' : IRInst} {w w' : World σ} (done : irMemAccess vm ir w = some (ir', w')) :
    w'.sys.fixed = w.sys.fixed := by
  unfold irMemAccess at done
  split at done
  · obtain ⟨⟨raw, world⟩, read, same⟩ := Option.map_eq_some_iff.mp done
    cases same
    exact (reports.read read).fixed
  · obtain ⟨world, written, same⟩ := Option.map_eq_some_iff.mp done
    cases same
    exact (reports.write written).fixed
  · cases done
    rfl

include reports in
theorem difftestStep_steady (done : e.difftestStep vm cfg = some e') : e.Steady e' := by
  unfold difftestStep at done
  obtain ⟨⟨raw, w⟩, read, done⟩ := Option.bind_eq_some_iff.mp done
  obtain ⟨⟨ir, sys⟩, executed, done⟩ := Option.bind_eq_some_iff.mp done
  have fetched : w.sys.fixed = e.world.sys.fixed := (reports.read read).fixed
  have run : sys.fixed = w.sys.fixed := irExecute_fixed executed
  simp only at done
  split at done
  · obtain ⟨⟨ir', w'⟩, accessed, done⟩ := Option.bind_eq_some_iff.mp done
    cases done
    exact .of_quiet ((irMemAccess_fixed reports accessed).trans (run.trans fetched)) rfl rfl
  · cases done
    exact .of_quiet (run.trans fetched) rfl rfl

include reports in
theorem difftestCheck_steady {entry : ROBEntry} (done : e.difftestCheck vm cfg entry = some e') : e.Steady e' := by
  unfold difftestCheck at done
  obtain ⟨e₁, stepped, done⟩ := Option.bind_eq_some_iff.mp done
  refine (difftestStep_steady reports stepped).trans ?_
  simp only at done
  split at done
  · cases done
    exact .of_quiet rfl rfl rfl
  · cases done
    exact .refl _
  · split at done
    · split at done
      · cases done
        exact .of_quiet rfl rfl rfl
      · split at done
        · cases done
          exact .of_quiet rfl rfl (commits_emit (e := e₁) (by simp))
        · cases done
          exact .of_quiet rfl rfl rfl
    · split at done
      · cases done
        exact .refl _
      · cases done
        exact .of_quiet rfl rfl (commits_emit (e := e₁) (by simp))

theorem commitTrace_steady (e : Engine σ β) (ir : IRInst) : e.Steady (e.commitTrace cfg ir) := by
  unfold commitTrace
  refine .of_quiet ?_ ?_ ?_
  · split <;> split <;> rfl
  · split <;> split <;> rfl
  · split <;> split <;> first | rfl | exact commits_emit (e := e) (by simp)

include reports in
theorem commitStore_steady {entry : ROBEntry} (done : e.commitStore vm entry = some e') : e.Steady e' := by
  unfold commitStore at done
  simp only at done
  split at done
  · split at done
    · cases done
      exact .of_quiet rfl rfl rfl
    · obtain ⟨world, written, rfl⟩ := Option.map_eq_some_iff.mp done
      exact .of_quiet (reports.write written).fixed rfl rfl
  · cases done
    exact .refl e

/-- The commit and its count are two halves of one step. -/
theorem commit_retire_steady {entry : ROBEntry} {value : Word}
    (checked : Steady ((e.commitRegs entry).emit (.commit entry value)) e') : e.Steady e'.retire := by
  obtain ⟨fixed, insts⟩ := checked
  refine ⟨fixed, ?_⟩
  change e'.stats.insts + 1 + _ = _ + (commits e'.log).length
  change _ + (commits (e.log ++ _)).length = e.stats.insts + _ at insts
  rw [commits_append, List.length_append] at insts
  change _ + (_ + 1) = _ at insts
  omega

include reports in
theorem commitOne_steady {goesOn : Bool} (done : e.commitOne vm cfg = some (e', goesOn)) : e.Steady e' := by
  unfold commitOne at done
  simp only at done
  split at done
  · cases done
    exact .refl e
  · have traced : e.Steady (e.commitTrace cfg (e.ooo.rob e.ooo.robHead).ir) :=
      commitTrace_steady e (e.ooo.rob e.ooo.robHead).ir
    split at done
    · cases done
      exact traced
    · split at done
      · cases done
      · split at done
        · cases done
          exact traced
        · obtain ⟨e₁, stored, done⟩ := Option.bind_eq_some_iff.mp done
          refine traced.trans ((commitStore_steady reports stored).trans ?_)
          split at done
          · obtain ⟨e₂, checked, done⟩ := Option.bind_eq_some_iff.mp done
            cases done
            exact commit_retire_steady (difftestCheck_steady reports checked)
          · cases done
            exact commit_retire_steady (.refl _)

include reports in
theorem commitLoop_steady {turns : Nat} (done : commitLoop vm cfg turns e = some e') : e.Steady e' := by
  induction turns generalizing e with
  | zero =>
      cases done
      exact .refl _
  | succ turns ih =>
      obtain ⟨⟨e₁, goesOn⟩, committed, done⟩ := Option.bind_eq_some_iff.mp done
      have first := commitOne_steady reports committed
      cases goesOn with
      | true => exact first.trans (ih done)
      | false =>
          cases done
          exact first

include reports in
theorem stageCommit_steady (done : e.stageCommit vm cfg = some e') : e.Steady e' := by
  have quiet : e.Steady { e with tcIr := [] } := .of_quiet rfl rfl rfl
  exact quiet.trans (commitLoop_steady reports done)

/-! ## Functional units -/

theorem resolveBranch_quiet (e : Engine σ β) (i : RobIdx) (ir : IRInst) : e.Quiet (e.resolveBranch cfg i ir) := by
  unfold resolveBranch
  dsimp only
  generalize (if ir.bpPredictedPc ≠ 0 then ir.bpPredictedPc else ir.snpc) = predicted
  split
  · split
    · exact ⟨rfl, rfl, rfl, rfl, rfl, rfl⟩
    · exact ⟨rfl, rfl, rfl, rfl, rfl, rfl⟩
  · exact ⟨rfl, rfl, rfl, rfl, rfl, rfl⟩

theorem intSlot_quiet {s : Fin 2} (done : e.intSlot vm cfg s = some e') : e.Quiet e' := by
  unfold intSlot at done
  simp only at done
  split at done
  · cases done
    exact .refl e
  · split at done
    · cases done
      exact ⟨rfl, rfl, rfl, rfl, rfl, rfl⟩
    · obtain ⟨⟨ir, sys⟩, executed, rfl⟩ := Option.map_eq_some_iff.mp done
      have kept : e.Quiet { e.setSys sys with
          ooo := (e.ooo.dropLatch .int s).finishExec (e.ooo.latch .int s).robIdx (e.ooo.latch .int s).physRd ir } :=
        ⟨irExecute_fixed executed, rfl, rfl, rfl, rfl, rfl⟩
      simp only
      split
      · exact kept.trans (resolveBranch_quiet _ _ _)
      · exact kept

theorem mulFinish_quiet {s : Fin 2} (done : e.mulFinish vm s = some e') : e.Quiet e' := by
  unfold mulFinish at done
  simp only at done
  split at done
  · cases done
    exact ⟨rfl, rfl, rfl, rfl, rfl, rfl⟩
  · obtain ⟨⟨ir, sys⟩, executed, rfl⟩ := Option.map_eq_some_iff.mp done
    exact ⟨irExecute_fixed executed, rfl, rfl, rfl, rfl, rfl⟩

theorem mulSlot_quiet {s : Fin 2} (done : e.mulSlot vm s = some e') : e.Quiet e' := by
  unfold mulSlot at done
  simp only at done
  split at done
  · cases done
    exact .refl e
  · split at done
    · have armed : e.Quiet { e with ooo := e.ooo.setLatch .mul s { e.ooo.latch .mul s with
          cyclesRem := (mulLat (e.ooo.rob (e.ooo.latch .mul s).robIdx).ir.raw : Int) - 1 } } := ⟨rfl, rfl, rfl, rfl, rfl, rfl⟩
      split at done
      · cases done
        exact armed
      · exact armed.trans (mulFinish_quiet done)
    · split at done
      · split at done <;>
          · cases done
            exact ⟨rfl, rfl, rfl, rfl, rfl, rfl⟩
      · exact mulFinish_quiet done

include reports in
theorem lsuFill_quiet {s : Fin 2} {mshr : Option MshrIdx} (done : e.lsuFill vm s mshr = some e') : e.Quiet e' := by
  unfold lsuFill at done
  simp only at done
  split at done
  · cases done
    exact ⟨rfl, rfl, rfl, rfl, rfl, rfl⟩
  · obtain ⟨⟨raw, world⟩, read, rfl⟩ := Option.map_eq_some_iff.mp done
    exact ⟨(reports.fillAndRead read).fixed, rfl, commits_emit (e := e) (by simp), rfl,
      logged_quiet _ (by simp), rfl⟩

include reports in
theorem lsuFlushed_quiet {s : Fin 2} (done : e.lsuFlushed vm s = some e') : e.Quiet e' := by
  unfold lsuFlushed at done
  simp only at done
  split at done
  · cases done
    exact ⟨rfl, rfl, rfl, rfl, rfl, rfl⟩
  · split at done
    · cases done
      exact .refl e
    · obtain ⟨⟨raw, world⟩, read, rfl⟩ := Option.map_eq_some_iff.mp done
      exact ⟨(reports.fillAndRead read).fixed, rfl, rfl, rfl, rfl, rfl⟩

include reports in
theorem lsuStart_quiet {s : Fin 2} (done : e.lsuStart vm s = some e') : e.Quiet e' := by
  unfold lsuStart at done
  simp only at done
  split at done
  · cases done
    exact ⟨rfl, rfl, rfl, rfl, rfl, rfl⟩
  · split at done
    · split at done
      · cases done
        exact ⟨rfl, rfl, rfl, rfl, rfl, rfl⟩
      · exact lsuFill_quiet reports done
    · have probed : e.Quiet { e with
          world := (vm.probeLevel e.world (e.ooo.rob (e.ooo.latch .lsu s).robIdx).ir.memAddr).2 } :=
        ⟨congrArg Sys.fixed (reports.probeLevel _ _), rfl, rfl, rfl, rfl, rfl⟩
      split at done
      · exact probed.trans (lsuFill_quiet reports done)
      · split at done <;>
          · cases done
            exact ⟨congrArg Sys.fixed (reports.probeLevel _ _), rfl, rfl, rfl, rfl, rfl⟩

include reports in
theorem lsuSlot_quiet {s : Fin 2} (done : e.lsuSlot vm s = some e') : e.Quiet e' := by
  unfold lsuSlot at done
  simp only at done
  split at done
  · cases done
    exact .refl e
  · split at done
    · exact lsuFlushed_quiet reports done
    · split at done
      · split at done
        · obtain ⟨⟨ir, sys⟩, executed, done⟩ := Option.bind_eq_some_iff.mp done
          refine Quiet.trans ?_ (lsuStart_quiet reports done)
          exact ⟨irExecute_fixed executed, rfl, rfl, rfl, rfl, rfl⟩
        · split at done
          · cases done
            exact .refl e
          · exact lsuFill_quiet reports done
      · split at done
        · cases done
          exact .refl e
        · exact lsuFill_quiet reports done

theorem unit_quiet {step : Engine σ β → Fin 2 → Option (Engine σ β)} {slots : List (Fin 2)}
    (quiet : ∀ {e e' : Engine σ β} {s : Fin 2}, step e s = some e' → e.Quiet e') (done : e.unit step slots = some e') :
    e.Quiet e' := by
  induction slots generalizing e with
  | nil =>
      cases done
      exact .refl _
  | cons s rest ih =>
      obtain ⟨e₁, stepped, done⟩ := Option.bind_eq_some_iff.mp done
      exact (quiet stepped).trans (ih done)

/-! ## Front end -/

theorem renameStall_insts {o : OOOState} {n : Fin 2} {ir : IRInst} {rsUsed : Nat} {count : OOOStats → OOOStats}
    (stall : renameStall o n ir rsUsed = some count) (stats : OOOStats) : (count stats).insts = stats.insts := by
  unfold renameStall at stall
  split at stall
  · cases stall
    split <;> rfl
  · split at stall
    · cases stall
      rfl
    · split at stall
      · cases stall
        rfl
      · split at stall
        · cases stall
          rfl
        · cases stall

theorem renameSlot_quiet {n : Fin 2} (done : e.renameSlot n = some e') : e.Quiet e' := by
  unfold renameSlot at done
  obtain ⟨o, _, rfl⟩ := Option.map_eq_some_iff.mp done
  refine ⟨rfl, rfl, ?_, rfl, ?_, rfl⟩
  · change commits (e.log ++ _) = _
    rw [commits_append]
    split
    · exact List.append_nil _
    · exact List.append_nil _
  · change logged (e.log ++ _) = _
    rw [logged_append]
    split
    · exact List.append_nil _
    · exact List.append_nil _

theorem renameLoop_quiet {slots : List (Fin 2)} {used : Nat} (done : renameLoop slots used e = some e') : e.Quiet e' := by
  induction slots generalizing e used with
  | nil =>
      cases done
      exact .refl _
  | cons n rest ih =>
      unfold renameLoop at done
      split at done
      · cases done
        exact .refl _
      · split at done
        · next count stall =>
            cases done
            exact ⟨rfl, renameStall_insts stall e.stats, rfl, rfl, rfl, rfl⟩
        · obtain ⟨e₁, renamed, done⟩ := Option.bind_eq_some_iff.mp done
          exact (renameSlot_quiet renamed).trans (ih done)

theorem stageRn_quiet (done : e.stageRn = some e') : e.Quiet e' := by
  unfold stageRn at done
  split at done
  · cases done
    exact .refl e
  · obtain ⟨e₁, renamed, rfl⟩ := Option.map_eq_some_iff.mp done
    exact (renameLoop_quiet renamed).trans (⟨rfl, rfl, rfl, rfl, rfl, rfl⟩)

theorem stageId_quiet (e : Engine σ β) : e.Quiet e.stageId := by
  unfold stageId
  simp only
  split
  · exact .refl e
  · exact ⟨rfl, rfl, rfl, rfl, rfl, rfl⟩

include reports in
theorem fetchSlot_quiet {s : Fin 2} {goesOn : Bool} (done : e.fetchSlot vm cfg s = some (e', goesOn)) : e.Quiet e' := by
  unfold fetchSlot at done
  simp only at done
  split at done
  · cases done
    exact ⟨rfl, rfl, rfl, rfl, rfl, rfl⟩
  · obtain ⟨⟨word, world⟩, read, same⟩ := Option.map_eq_some_iff.mp done
    have kept := (reports.ifetch read).fixed
    simp only at same
    split at same
    · split at same <;>
        · cases same
          exact ⟨kept, rfl, rfl, rfl, rfl, rfl⟩
    · cases same
      exact ⟨kept, rfl, rfl, rfl, rfl, rfl⟩

include reports in
theorem fetchLoop_quiet {slots : List (Fin 2)} (done : fetchLoop vm cfg slots e = some e') : e.Quiet e' := by
  induction slots generalizing e with
  | nil =>
      cases done
      exact .refl _
  | cons s rest ih =>
      obtain ⟨⟨e₁, goesOn⟩, fetched, done⟩ := Option.bind_eq_some_iff.mp done
      have first := fetchSlot_quiet reports fetched
      cases goesOn with
      | true => exact first.trans (ih done)
      | false =>
          cases done
          exact first

include reports in
theorem stageIf_quiet (done : e.stageIf vm cfg = some e') : e.Quiet e' := by
  unfold stageIf at done
  split at done
  · cases done
    exact .refl e
  · exact fetchLoop_quiet reports done

include reports in
/-- A cycle commits first and advances the counters once, at its end. -/
theorem cycle_counts (done : e.cycle vm cfg = some e') : ∃ drained committed last,
    e.drainStoreBuf vm cfg = some drained ∧ drained.stageCommit vm cfg = some committed ∧ e.Steady committed ∧
      committed.Quiet last ∧ e' = last.tick := by
  unfold cycle at done
  obtain ⟨e₁, drained, done⟩ := Option.bind_eq_some_iff.mp done
  obtain ⟨e₂, committed, done⟩ := Option.bind_eq_some_iff.mp done
  obtain ⟨e₃, executed, done⟩ := Option.bind_eq_some_iff.mp done
  obtain ⟨e₄, multiplied, done⟩ := Option.bind_eq_some_iff.mp done
  obtain ⟨e₅, accessed, done⟩ := Option.bind_eq_some_iff.mp done
  obtain ⟨e₆, renamed, done⟩ := Option.bind_eq_some_iff.mp done
  obtain ⟨e₇, fetched, done⟩ := Option.bind_eq_some_iff.mp done
  cases done
  have ticked : e₂.Quiet { e₂ with ooo := e₂.ooo.mshrTick } := ⟨rfl, rfl, rfl, rfl, rfl, rfl⟩
  have issued : e₅.Quiet { e₅ with ooo := e₅.ooo.stageIs } := ⟨rfl, rfl, rfl, rfl, rfl, rfl⟩
  have units : e₂.Quiet e₅ := ticked.trans ((unit_quiet intSlot_quiet executed).trans
    ((unit_quiet mulSlot_quiet multiplied).trans (unit_quiet (lsuSlot_quiet reports) accessed)))
  have front : e₅.Quiet e₇ := issued.trans ((stageRn_quiet renamed).trans
    ((stageId_quiet e₆).trans (stageIf_quiet reports fetched)))
  exact ⟨e₁, e₂, e₇, drained, committed, (drainStoreBuf_steady reports drained).trans (stageCommit_steady reports committed),
    units.trans front, rfl⟩

end Reports

end Engine

end Sustemu
