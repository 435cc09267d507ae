import Sustemu.Ooo.StepInvariant
import Mathlib.Logic.Relation

/-!
# A cycle is a sequence of steps

Each stage function of the engine runs through the step relations, provided the
invariant holds where the stage starts.
-/

set_option autoImplicit false

namespace Sustemu

open Lib Relation

namespace OOOState

variable {o o' : OOOState}

/-! ## Completions -/

theorem Completes.setEntry {eu : EU} {s : Fin 2} {entry entry' : ROBEntry} {result : Word}
    (completes : o.Completes eu s entry result o') :
    o.Completes eu s entry' result (o'.setRob (o.latch eu s).robIdx entry') where
  rob := by
    unfold setRob
    rw [completes.rob, setAt_idem]
  head := completes.head
  tail := completes.tail
  count := completes.count
  rat := completes.rat
  rrat := completes.rrat
  freelist := completes.freelist
  freeMask := completes.freeMask
  latch := completes.latch
  written := completes.written
  unwritten := completes.unwritten
  front := completes.front
  stores := completes.stores
  lines := completes.lines

/-- The physical destination in a live slot. -/
theorem Inv.slot_physRd (inv : o.Inv) {eu : EU} {s : Fin 2} (live : o.Live eu s) :
    (∀ r, (o.slotEntry eu s).pending = some r → (o.latch eu s).physRd = some r.fresh ∧ r.fresh ≠ 0) ∧
    ((o.slotEntry eu s).pending = none → (o.latch eu s).physRd = none ∨ (o.latch eu s).physRd = some 0) := by
  have valid := (inv.live_entry live).1
  have physRd := (inv.placed.latched eu s live.valid live.kept).physRd
  rw [physRd]
  constructor
  · intro r pending
    exact ⟨(pending_dest pending).2.1, inv.renamed.fresh_ne_zero valid pending⟩
  · intro absent
    obtain ⟨same, shape⟩ := inv.renamed.shape _ valid
    apply shape
    have none : (o.slotEntry eu s).dest.isSome = false := by
      rw [← show _ = (o.slotEntry eu s).dest.isSome from same]
      exact Option.isSome_eq_false_iff.mpr (Option.isNone_iff_eq_none.mpr absent)
    exact Option.isNone_iff_eq_none.mp (Option.isSome_eq_false_iff.mp none)

theorem Inv.completes_finishExec (inv : o.Inv) {eu : EU} {s : Fin 2} (live : o.Live eu s) (ir : IRInst) :
    o.Completes eu s { o.slotEntry eu s with ir := ir, ready := true } ir.result
      ((o.dropLatch eu s).finishExec (o.latch eu s).robIdx (o.latch eu s).physRd ir) := by
  obtain ⟨named, unnamed⟩ := inv.slot_physRd live
  have updated : ∀ (rob : RobIdx → ROBEntry) (i : RobIdx) (entry : ROBEntry),
      setAt (setAt rob i entry) i { setAt rob i entry i with ready := true } =
        setAt rob i { entry with ready := true } := by
    intro rob i entry
    rw [setAt_idem, setAt_self]
  cases pending : (o.slotEntry eu s).pending with
  | some r =>
      obtain ⟨physRd, nonzero⟩ := named r pending
      unfold finishExec
      simp only [physRd, ne_eq, nonzero, not_false_eq_true, ↓reduceIte]
      refine ⟨updated .., rfl, rfl, rfl, rfl, rfl, rfl, rfl, rfl, ?_, ?_, ⟨rfl, rfl, rfl⟩, ⟨rfl, rfl, rfl, rfl⟩,
        fun _ => rfl⟩
      · intro r' same
        cases pending.symm.trans same
        exact ⟨rfl, rfl, rfl⟩
      · intro absent
        cases pending.symm.trans absent
  | none =>
      rcases unnamed pending with physRd | physRd
      · unfold finishExec
        simp only [physRd]
        refine ⟨updated .., rfl, rfl, rfl, rfl, rfl, rfl, rfl, rfl, ?_, ?_, ⟨rfl, rfl, rfl⟩, ⟨rfl, rfl, rfl, rfl⟩,
          fun _ => rfl⟩
        · intro r' same
          cases pending.symm.trans same
        · exact fun _ => ⟨fun _ _ => rfl, rfl, rfl⟩
      · unfold finishExec
        simp only [physRd, ne_eq, not_true_eq_false, ↓reduceIte]
        refine ⟨updated .., rfl, rfl, rfl, rfl, rfl, rfl, rfl, rfl, ?_, ?_, ⟨rfl, rfl, rfl⟩, ⟨rfl, rfl, rfl, rfl⟩,
          fun _ => rfl⟩
        · intro r' same
          cases pending.symm.trans same
        · exact fun _ => ⟨fun p nonzero => setAt_of_ne nonzero .., rfl, rfl⟩

/-- No station waits for `p0`. -/
theorem Inv.broadcast_zero (inv : o.Inv) (value : Word) :
    ((o.setPrf 0 ⟨value, true⟩).cdbBroadcast 0).rs = o.rs ∧
      ((o.setPrf 0 ⟨value, true⟩).cdbBroadcast 0).rsReadyMask = o.rsReadyMask := by
  have asleep : ∀ k, o.rsFreeMask k = false → (!(o.rs k).src1Ready && (o.rs k).src1Ptag == 0) = false ∧
      (!(o.rs k).src2Ready && (o.rs k).src2Ptag == 0) = false := by
    intro k occupied
    have valid : (o.rs k).valid = true := by
      have free := inv.placed.freeMask k
      rw [occupied] at free
      simpa using free.symm
    have ok := inv.placed.station k valid
    have live := (inv.renamed.valid _).mp (inv.placed.waiting _ _ (occupant_station valid)).1
    have waits : ∀ source decoded ready value tag,
        o.Captured (o.mapAt (o.pos (o.rs k).robIdx)) source decoded ready value tag → (!ready && tag == 0) = false := by
      intro source decoded ready value tag captured
      cases ready with
      | true => rfl
      | false =>
          obtain ⟨a, _, nonzero, mapped, _⟩ := captured.not_ready
          have named := inv.renamed.mapAt_ne_zero (Nat.le_of_lt live) nonzero
          rw [← mapped] at named
          simpa using named
    exact ⟨waits _ _ _ _ _ ok.src1, waits _ _ _ _ _ ok.src2⟩
  constructor
  · funext k
    unfold cdbBroadcast setPrf
    simp only
    split
    · rfl
    · next occupied =>
        obtain ⟨first, second⟩ := asleep k (by simpa using occupied)
        unfold RSEntry.wake
        simp only [first, second, Bool.false_eq_true, ↓reduceIte]
  · funext eu k
    unfold cdbBroadcast setPrf
    simp only
    split
    · next woken =>
        simp only [RSEntry.wake_changed, Bool.and_eq_true, Bool.not_eq_true'] at woken
        obtain ⟨⟨⟨⟨occupied, changed⟩, _⟩, _⟩, _⟩ := woken
        obtain ⟨first, second⟩ := asleep k occupied
        rw [first, second] at changed
        cases changed
    · rfl

theorem Inv.completes_lsuFault (inv : o.Inv) {s : Fin 2} (live : o.Live .lsu s) :
    o.Completes .lsu s { o.slotEntry .lsu s with
      ir := { (o.slotEntry .lsu s).ir with fault := true, result := 0 }
      ready := true } 0 (Engine.lsuFault o s) := by
  obtain ⟨named, unnamed⟩ := inv.slot_physRd live
  have updated : ∀ (rob : RobIdx → ROBEntry) (i : RobIdx) (entry : ROBEntry),
      setAt (setAt rob i entry) i { setAt rob i entry i with ready := true } =
        setAt rob i { entry with ready := true } := by
    intro rob i entry
    rw [setAt_idem, setAt_self]
  cases pending : (o.slotEntry .lsu s).pending with
  | some r =>
      obtain ⟨physRd, nonzero⟩ := named r pending
      unfold Engine.lsuFault
      simp only [physRd, ne_eq, nonzero, not_false_eq_true, ↓reduceIte]
      refine ⟨updated .., rfl, rfl, rfl, rfl, rfl, rfl, rfl, rfl, ?_, ?_, ⟨rfl, rfl, rfl⟩, ⟨rfl, rfl, rfl, rfl⟩,
        fun _ => rfl⟩
      · intro r' same
        cases pending.symm.trans same
        exact ⟨rfl, rfl, rfl⟩
      · intro absent
        cases pending.symm.trans absent
  | none =>
      have unwritten : Engine.lsuFault o s = ((o.setRob (o.latch .lsu s).robIdx
          { o.slotEntry .lsu s with ir := { (o.slotEntry .lsu s).ir with fault := true, result := 0 } }).setRob
          (o.latch .lsu s).robIdx { ir := { (o.slotEntry .lsu s).ir with fault := true, result := 0 }
                                    __ := o.slotEntry .lsu s
                                    ready := true }).dropLatch .lsu s := by
        unfold Engine.lsuFault
        rcases unnamed pending with physRd | physRd
        · simp only [physRd, rob_setRob_self]
          rfl
        · simp only [physRd, ne_eq, not_true_eq_false, ↓reduceIte, rob_setRob_self]
          rfl
      rw [unwritten]
      refine ⟨setAt_idem .., rfl, rfl, rfl, rfl, rfl, rfl, rfl, rfl, ?_, ?_, ⟨rfl, rfl, rfl⟩,
        ⟨rfl, rfl, rfl, rfl⟩, fun _ => rfl⟩
      · intro r' same
        cases pending.symm.trans same
      · exact fun _ => ⟨fun _ _ => rfl, rfl, rfl⟩

theorem mshrRelease_eq (o : OOOState) (s : Fin 2) (m : MshrIdx) :
    ∃ mshr, o.mshrRelease s m = { o with mshr := mshr } ∧ ∀ i, (mshr i).lineAddr = (o.mshr i).lineAddr := by
  unfold mshrRelease
  simp only
  split
  · exact ⟨o.mshr, rfl, fun _ => rfl⟩
  · refine ⟨_, rfl, ?_⟩
    intro i
    by_cases same : i = m
    · rw [same, setAt_self]
    · rw [setAt_of_ne same]

private theorem Inv.completes_lsuFinish_hit (inv : o.Inv) {s : Fin 2} (live : o.Live .lsu s) (result : Word) :
    o.Completes .lsu s { o.slotEntry .lsu s with
      ir := { (o.slotEntry .lsu s).ir with result := result }
      ready := true } result (Engine.lsuFinish o s none result) := by
  obtain ⟨named, unnamed⟩ := inv.slot_physRd live
  unfold Engine.lsuFinish
  simp only
  cases pending : (o.slotEntry .lsu s).pending with
  | some r =>
      obtain ⟨physRd, nonzero⟩ := named r pending
      simp only [physRd]
      refine ⟨rfl, rfl, rfl, rfl, rfl, rfl, rfl, rfl, rfl, ?_, ?_, ⟨rfl, rfl, rfl⟩, ⟨rfl, rfl, rfl, rfl⟩, fun _ => rfl⟩
      · intro r' same
        cases pending.symm.trans same
        exact ⟨rfl, rfl, rfl⟩
      · intro absent
        cases pending.symm.trans absent
  | none =>
      rcases unnamed pending with physRd | physRd
      · simp only [physRd]
        refine ⟨rfl, rfl, rfl, rfl, rfl, rfl, rfl, rfl, rfl, ?_, ?_, ⟨rfl, rfl, rfl⟩, ⟨rfl, rfl, rfl, rfl⟩, fun _ => rfl⟩
        · intro r' same
          cases pending.symm.trans same
        · exact fun _ => ⟨fun _ _ => rfl, rfl, rfl⟩
      · simp only [physRd]
        obtain ⟨rs, readyMask⟩ := inv.broadcast_zero result
        refine ⟨rfl, rfl, rfl, rfl, rfl, rfl, rfl, rfl, rfl, ?_, ?_, ⟨rfl, rfl, rfl⟩, ⟨rfl, rfl, rfl, rfl⟩, fun _ => rfl⟩
        · intro r' same
          cases pending.symm.trans same
        · exact fun _ => ⟨fun p nonzero => setAt_of_ne nonzero .., rs, readyMask⟩

theorem Inv.completes_lsuFinish (inv : o.Inv) {s : Fin 2} (live : o.Live .lsu s) (mshr : Option MshrIdx)
    (result : Word) :
    o.Completes .lsu s { o.slotEntry .lsu s with
      ir := { (o.slotEntry .lsu s).ir with result := result }
      ready := true } result (Engine.lsuFinish o s mshr result) := by
  cases mshr with
  | none => exact inv.completes_lsuFinish_hit live result
  | some m =>
      obtain ⟨mshr, released, lines⟩ := mshrRelease_eq o s m
      have same : Engine.lsuFinish o s (some m) result = Engine.lsuFinish { o with mshr := mshr } s none result := by
        unfold Engine.lsuFinish
        simp only [released]
      have inv' : ({ o with mshr := mshr } : OOOState).Inv :=
        inv.same ⟨rfl, rfl, rfl, rfl, rfl, rfl, rfl, rfl, rfl, rfl, rfl, rfl⟩
      have completes := inv'.completes_lsuFinish_hit (s := s) ⟨live.valid, live.kept⟩ result
      rw [same]
      exact ⟨completes.rob, completes.head, completes.tail, completes.count, completes.rat, completes.rrat,
        completes.freelist, completes.freeMask, completes.latch, completes.written, completes.unwritten,
        completes.front, completes.stores, fun i => (completes.lines i).trans (lines i)⟩

/-- A store has no destination. -/
theorem Ok.store_pending (ok : o.Ok) {s : Fin 2} (live : o.Live .lsu s) (computed : o.Computed s)
    (store : (o.slotEntry .lsu s).ir.itype = .store) : (o.slotEntry .lsu s).pending = none := by
  obtain ⟨decoded, archRd⟩ := ok.decoded _ (ok.inv.live_entry live).1
  obtain ⟨run, executor, done⟩ := computed.done
  have class_ := pure_itype executor (o.slotEntry .lsu s).ir
  rw [done, store, show (o.slotEntry .lsu s).ir.execFn = _ from decoded.fn] at class_
  have noRd : (o.slotEntry .lsu s).archRd = none := by
    rw [show (o.slotEntry .lsu s).archRd = _ from archRd, rdOf, irSelect_store class_.symm]
  unfold ROBEntry.pending ROBEntry.dest
  rw [noRd]
  rfl

theorem Ok.completes_store (ok : o.Ok) {s : Fin 2} (live : o.Live .lsu s) (computed : o.Computed s)
    (store : (o.slotEntry .lsu s).ir.itype = .store) (count : Int) :
    o.Completes .lsu s
      { o.slotEntry .lsu s with storeData := (o.slotEntry .lsu s).ir.src2Val, ready := true } 0
      ({ o.setRob (o.latch .lsu s).robIdx
          { o.slotEntry .lsu s with storeData := (o.slotEntry .lsu s).ir.src2Val, ready := true } with
        unreadyStoreCount := count }.dropLatch .lsu s) := by
  have absent := ok.store_pending live computed store
  refine ⟨rfl, rfl, rfl, rfl, rfl, rfl, rfl, rfl, rfl, ?_, ?_, ⟨rfl, rfl, rfl⟩, ⟨rfl, rfl, rfl, rfl⟩, fun _ => rfl⟩
  · intro r pending
    cases absent.symm.trans pending
  · exact fun _ => ⟨fun _ _ => rfl, rfl, rfl⟩

end OOOState

namespace Engine

variable {σ β : Type} {vm : VMem σ} {cfg : OooConfig β} {e e' : Engine σ β}

/-! ## Store buffer and commit -/

theorem drainStoreBuf_steps (done : e.drainStoreBuf vm cfg = some e') : ReflTransGen (BackStep vm cfg) e e' := by
  unfold drainStoreBuf at done
  simp only at done
  split at done
  · cases done
    exact .refl
  · next waiting =>
      split at done
      · cases done
        exact .single (.timer e.ooo.mshr _ fun _ => rfl)
      · obtain ⟨world, written, same⟩ := Option.map_eq_some_iff.mp done
        rw [← same]
        exact .single (.drain waiting written)

variable (cfg) in
theorem commitTrace_eq (e : Engine σ β) (ir : IRInst) : ∃ tcIr lines,
    e.commitTrace cfg ir = { e with tcIr := tcIr, log := e.log ++ lines } ∧
      ∀ event ∈ lines, ∃ pc raw, event = .logLine pc raw := by
  unfold commitTrace
  simp only
  split
  · refine ⟨if cfg.traceEn then e.tcIr ++ [ir] else e.tcIr, [.logLine ir.pc ir.raw], ?_, fun event member => ⟨ir.pc, ir.raw, List.mem_singleton.mp member⟩⟩
    split <;> rfl
  · refine ⟨if cfg.traceEn then e.tcIr ++ [ir] else e.tcIr, [], ?_, fun _ absurdity => nomatch absurdity⟩
    rw [List.append_nil]
    split <;> rfl

/-- One turn of the commit loop: a trace line, and possibly a commit. -/
theorem commitOne_cases {goesOn : Bool} (done : e.commitOne vm cfg = some (e', goesOn)) : ∃ tcIr lines,
    (∀ event ∈ lines, ∃ pc raw, event = .logLine pc raw) ∧
      (goesOn = false ∧ e' = { e with tcIr := tcIr, log := e.log ++ lines } ∨
        BackStep vm cfg { e with tcIr := tcIr, log := e.log ++ lines } e' ∧
          Commits vm { e with tcIr := tcIr, log := e.log ++ lines } e') := by
  unfold commitOne at done
  simp only at done
  split at done
  · cases done
    exact ⟨e.tcIr, [], fun _ absurdity => (nomatch absurdity), .inl ⟨rfl, by rw [List.append_nil]⟩⟩
  · next can =>
      simp only [not_or, Bool.not_eq_true', Bool.not_eq_false] at can
      obtain ⟨live, _, ready⟩ := can
      obtain ⟨tcIr, lines, traced, quiet⟩ := commitTrace_eq cfg e (e.ooo.rob e.ooo.robHead).ir
      rw [traced] at done
      refine ⟨tcIr, lines, quiet, ?_⟩
      split at done
      · cases done
        exact .inl ⟨rfl, rfl⟩
      · next ordered =>
          split at done
          · cases done
          · next sound =>
              split at done
              · cases done
                exact .inl ⟨rfl, rfl⟩
              · next room =>
                  right
                  simp only [Option.bind_eq_bind, Option.bind_eq_some_iff] at done
                  obtain ⟨e₁, stored, rest⟩ := done
                  have checked : ∃ e₂, (if e₁.difftestActive then e₁.committed.difftestCheck vm cfg
                      (e.ooo.rob e.ooo.robHead) else some e₁.committed) = some e₂ ∧ e' = e₂.retire := by
                    have entry : e₁.ooo.rob e₁.ooo.robHead = e.ooo.rob e.ooo.robHead := by
                      rcases commitStore_cases stored with ⟨_, _, rfl⟩ | ⟨_, _, _, _, rfl⟩ | ⟨_, rfl⟩ <;> rfl
                    unfold committed
                    simp only [entry]
                    split at rest
                    · next active =>
                        obtain ⟨e₂, checked, same⟩ := Option.bind_eq_some_iff.mp rest
                        cases same
                        exact ⟨e₂, (if_pos active).trans checked, rfl⟩
                    · next inactive =>
                        cases rest
                        exact ⟨_, if_neg inactive, rfl⟩
                  obtain ⟨e₂, checked, rfl⟩ := checked
                  refine ⟨.commit live ready ?_ ?_ ?_ stored checked, commits_of_checked stored checked⟩
                  · intro fence
                    by_contra buffered
                    exact ordered ⟨fence, Nat.pos_of_ne_zero buffered⟩
                  · simpa using sound
                  · intro store cached
                    by_contra full
                    exact room ⟨store, cached, Nat.le_of_not_lt full⟩

theorem commitOne_steps {goesOn : Bool} (done : e.commitOne vm cfg = some (e', goesOn)) :
    ReflTransGen (BackStep vm cfg) e e' := by
  obtain ⟨tcIr, lines, quiet, ⟨_, same⟩ | ⟨step, _⟩⟩ := commitOne_cases done
  · rw [same]
    exact .single (.note quiet)
  · exact .tail (.single (.note quiet)) step

theorem commitLoop_steps {turns : Nat} (done : commitLoop vm cfg turns e = some e') :
    ReflTransGen (BackStep vm cfg) e e' := by
  induction turns generalizing e with
  | zero =>
      cases done
      exact .refl
  | succ turns ih =>
      simp only [commitLoop, Option.bind_eq_bind, Option.bind_eq_some_iff] at done
      obtain ⟨⟨e₁, goesOn⟩, one, rest⟩ := done
      have first := commitOne_steps one
      split at rest
      · exact first.trans (ih rest)
      · cases rest
        exact first

theorem resetTrace_step (e : Engine σ β) : BackStep vm cfg e { e with tcIr := [] } := by
  have noted : BackStep vm cfg e { e with stats := e.stats, tcIr := [], log := e.log ++ [] } :=
    .note fun _ absurdity => nomatch absurdity
  rwa [List.append_nil] at noted

theorem mshrTick_step (e : Engine σ β) : BackStep vm cfg e { e with ooo := e.ooo.mshrTick } := by
  apply BackStep.timer _ e.ooo.sbufDrainTick
  intro m
  simp only
  split <;> rfl

theorem stageCommit_steps (done : e.stageCommit vm cfg = some e') : ReflTransGen (BackStep vm cfg) e e' :=
  (ReflTransGen.single (resetTrace_step e)).trans (commitLoop_steps done)

/-! ## Functional units -/

/-- Only LSU slots are ever marked as flushed. -/
theorem live_of_valid {o : OOOState} (inv : o.Inv) {eu : EU} {s : Fin 2} (unit : eu ≠ .lsu)
    (valid : (o.latch eu s).valid = true) : o.Live eu s := by
  refine ⟨valid, ?_⟩
  cases flushed : (o.latch eu s).flushed with
  | false => rfl
  | true => exact absurd (inv.placed.flushed eu s flushed) unit

variable (cfg) in
/-- The three ways a control-flow instruction resolves. -/
theorem resolveBranch_cases (e : Engine σ β) (i : RobIdx) (ir : IRInst) :
    (ir.dnpc = ir.predicted ∧ e.resolveBranch cfg i ir = { e with bpred := cfg.bpred.update e.bpred ir }) ∨
    (inDram ir.dnpc = false ∧ e.resolveBranch cfg i ir =
      { e with
        bpred := cfg.bpred.update e.bpred ir
        ooo := e.ooo.setRob i { e.ooo.rob i with ir := { (e.ooo.rob i).ir with fault := true } } }) ∨
    (ir.dnpc ≠ ir.predicted ∧ inDram ir.dnpc = true ∧ e.resolveBranch cfg i ir =
      { e with
        bpred := cfg.bpred.rasRestore (cfg.bpred.update e.bpred ir) ir.rasTopSnap ir.rasCntSnap
        ooo := { e.ooo.flushAfter i with fetchPc := ir.dnpc }
        stats := { e.stats with mispredFlushes := e.stats.mispredFlushes + 1 } }) := by
  by_cases right : ir.dnpc = ir.predicted
  · exact .inl ⟨right, if_neg (fun wrong => wrong right)⟩
  · cases target : inDram ir.dnpc with
    | false => exact .inr (.inl ⟨rfl, (if_pos right).trans (if_pos (by rw [target]; rfl))⟩)
    | true => exact .inr (.inr ⟨right, rfl, (if_pos right).trans (if_neg (by rw [target]; exact Bool.false_ne_true))⟩)

theorem intSlot_steps (ok : e.ooo.Ok) {s : Fin 2} (done : e.intSlot vm cfg s = some e') :
    ReflTransGen (BackStep vm cfg) e e' := by
  unfold intSlot at done
  simp only at done
  split at done
  · cases done
    exact .refl
  · next valid =>
      have live : e.ooo.Live .int s := live_of_valid ok.inv (by decide) (by simpa using valid)
      have entryValid : ((e.ooo.dropLatch .int s).rob (e.ooo.latch .int s).robIdx).valid = true :=
        (ok.inv.live_entry live).1
      rw [if_neg (by simp [entryValid])] at done
      obtain ⟨⟨ir, sys⟩, run, same⟩ := Option.map_eq_some_iff.mp done
      have completes := ok.inv.completes_finishExec live ir
      simp only at same
      split at same
      · next control =>
          rcases resolveBranch_cases cfg _ (e.ooo.latch .int s).robIdx ir with
            ⟨right, resolved⟩ | ⟨outside, resolved⟩ | ⟨wrong, target, resolved⟩
          · rw [← same, resolved]
            refine .single (.exec _ false (by decide) live run ?_ nofun fun _ _ => .inl right)
            rw [Bool.or_false]
            exact completes
          · rw [← same, resolved]
            refine .single (.exec _ true (by decide) live run ?_ (fun _ => outside) fun _ _ => .inr rfl)
            rw [Bool.or_true]
            have entry := congrFun completes.rob (e.ooo.latch .int s).robIdx
            rw [setAt_self] at entry
            simp only [entry]
            exact completes.setEntry
          · rw [← same, resolved]
            exact .single (.redirect live run completes control wrong target)
      · next other =>
          rw [← same]
          refine .single (.exec e.bpred false (by decide) live run ?_ nofun
            fun _ control => absurd control other)
          rw [Bool.or_false]
          exact completes

theorem mulFinish_steps (ok : e.ooo.Ok) {s : Fin 2} (valid : (e.ooo.latch .mul s).valid = true)
    (done : e.mulFinish vm s = some e') : ReflTransGen (BackStep vm cfg) e e' := by
  have live : e.ooo.Live .mul s := live_of_valid ok.inv (by decide) valid
  have entryValid : ((e.ooo.dropLatch .mul s).rob (e.ooo.latch .mul s).robIdx).valid = true :=
    (ok.inv.live_entry live).1
  unfold mulFinish at done
  simp only at done
  rw [if_neg (by simp [entryValid])] at done
  obtain ⟨⟨ir, sys⟩, run, same⟩ := Option.map_eq_some_iff.mp done
  rw [← same]
  refine .single (.exec e.bpred false (by decide) live run ?_ nofun (nomatch ·))
  rw [Bool.or_false]
  exact ok.inv.completes_finishExec live ir

/-- What a visit to a slot of the MUL unit does. -/
inductive MulVisit (vm : VMem σ) (e : Engine σ β) (s : Fin 2) (e' : Engine σ β) : Prop where
  | idle (same : e' = e)
  | count {cycles : Int} (live : e.ooo.Live .mul s)
      (same : e' = { e with ooo := e.ooo.setLatch .mul s { e.ooo.latch .mul s with cyclesRem := cycles } })
  | first {cycles : Int} (live : e.ooo.Live .mul s)
      (done : mulFinish vm { e with ooo := e.ooo.setLatch .mul s { e.ooo.latch .mul s with cyclesRem := cycles } } s = some e')
  | last (live : e.ooo.Live .mul s) (done : e.mulFinish vm s = some e')

theorem mulSlot_visit (ok : e.ooo.Ok) {s : Fin 2} (done : e.mulSlot vm s = some e') : MulVisit vm e s e' := by
  unfold mulSlot at done
  simp only at done
  split at done
  · cases done
    exact .idle rfl
  · next valid =>
      have live : e.ooo.Live .mul s := live_of_valid ok.inv (by decide) (by simpa using valid)
      split at done
      · split at done
        · cases done
          exact .count live rfl
        · exact .first live done
      · split at done
        · have entryValid : (e.ooo.rob (e.ooo.latch .mul s).robIdx).valid = true := (ok.inv.live_entry live).1
          rw [if_neg (by simp [entryValid])] at done
          cases done
          exact .count live rfl
        · exact .last live done

/-- Counting down keeps the slot and the invariant. -/
theorem live_counted (ok : e.ooo.Ok) {s : Fin 2} (live : e.ooo.Live .mul s) (cycles : Int) :
    (e.ooo.setLatch .mul s { e.ooo.latch .mul s with cyclesRem := cycles }).Ok ∧
      (e.ooo.setLatch .mul s { e.ooo.latch .mul s with cyclesRem := cycles }).latch .mul s =
        { e.ooo.latch .mul s with cyclesRem := cycles } ∧
      (e.ooo.setLatch .mul s { e.ooo.latch .mul s with cyclesRem := cycles }).Live .mul s := by
  have slot : (e.ooo.setLatch .mul s { e.ooo.latch .mul s with cyclesRem := cycles }).latch .mul s =
      { e.ooo.latch .mul s with cyclesRem := cycles } := by
    rw [OOOState.latch_setLatch, if_pos ⟨rfl, rfl⟩]
  refine ⟨ok.visit e.ooo.mshr ⟨rfl, rfl, rfl, rfl, rfl, rfl⟩ nofun, slot, ?_, ?_⟩
  · rw [slot]
    exact live.valid
  · rw [slot]
    exact live.kept

theorem mulSlot_steps (ok : e.ooo.Ok) {s : Fin 2} (done : e.mulSlot vm s = some e') :
    ReflTransGen (BackStep vm cfg) e e' := by
  cases mulSlot_visit ok done with
  | idle same =>
      rw [same]
  | count live same =>
      rw [same]
      exact .single (.count live)
  | first live finished =>
      obtain ⟨ok', -, live'⟩ := live_counted ok live _
      exact (ReflTransGen.single (.count live)).trans (mulFinish_steps ok' live'.valid finished)
  | last live finished => exact mulFinish_steps ok live.valid finished

/-! ## Loads and stores -/

theorem lsuFill_steps (ok : e.ooo.Ok) {s : Fin 2} {mshr : Option MshrIdx} (addressed : e.ooo.Addressed s)
    (device : mmioBase ≤ (e.ooo.slotEntry .lsu s).ir.memAddr → (e.ooo.latch .lsu s).robIdx = e.ooo.robHead)
    (done : e.lsuFill vm s mshr = some e') : ReflTransGen (BackStep vm cfg) e e' := by
  unfold lsuFill at done
  simp only at done
  split at done
  · next outside =>
      cases done
      exact .single (.loadFault addressed (by simpa [OOOState.slotEntry] using outside)
        (ok.inv.completes_lsuFault addressed.live))
  · next mapped =>
      obtain ⟨⟨raw, world⟩, read, same⟩ := Option.map_eq_some_iff.mp done
      rw [← same]
      refine .single (.fill addressed device ?_ read (ok.inv.completes_lsuFinish addressed.live mshr _))
      simp only [Bool.and_eq_true, Bool.not_eq_true', decide_eq_true_eq, not_and] at mapped
      cases cached : inDram ((e.ooo.slotEntry .lsu s).ir.memAddr &&& 0xffffffff) with
      | true => exact .inl rfl
      | false => exact .inr (BitVec.not_lt.mp (mapped cached))

theorem lsuFlushed_steps {s : Fin 2} (valid : (e.ooo.latch .lsu s).valid = true)
    (flushed : (e.ooo.latch .lsu s).flushed = true) (done : e.lsuFlushed vm s = some e') :
    ReflTransGen (BackStep vm cfg) e e' := by
  unfold lsuFlushed at done
  simp only at done
  split at done
  · cases done
    exact .single (.discard e.ooo.mshr valid flushed (fun _ => rfl) (.inl rfl))
  · next m missed =>
      split at done
      · cases done
        exact .refl
      · obtain ⟨⟨value, world⟩, filled, same⟩ := Option.map_eq_some_iff.mp done
        obtain ⟨mshr, released, lines⟩ := e.ooo.mshrRelease_eq s m
        rw [← same, released]
        exact .single (.discard mshr valid flushed lines (.inr ⟨m, value, missed, filled⟩))

/-- What a request to the MSHR file answers. -/
theorem mshrFindOrAlloc_cases (o : OOOState) (line : Word) (lat : Nat) :
    o.mshrFindOrAlloc line lat = (none, o) ∨ ∃ m mshr, o.mshrFindOrAlloc line lat = (some m, { o with mshr := mshr }) ∧
      (mshr m).lineAddr = line ∧ ∀ m', m' ≠ m → (mshr m').lineAddr = (o.mshr m').lineAddr := by
  unfold OOOState.mshrFindOrAlloc
  split
  · next m found =>
      have held := List.find?_some found
      simp only [Bool.and_eq_true, beq_iff_eq] at held
      exact .inr ⟨m, o.mshr, rfl, held.2, fun _ _ => rfl⟩
  · split
    · next m found =>
        refine .inr ⟨m, _, rfl, by rw [setAt_self], ?_⟩
        intro m' different
        rw [setAt_of_ne different]
    · exact .inl rfl

theorem lsuStart_steps (ok : e.ooo.Ok) {s : Fin 2} (live : e.ooo.Live .lsu s) (computed : e.ooo.Computed s)
    (hit : (e.ooo.latch .lsu s).mshrIdx = none) (done : e.lsuStart vm s = some e') :
    ReflTransGen (BackStep vm cfg) e e' := by
  unfold lsuStart at done
  simp only at done
  split at done
  · next store =>
      cases done
      exact .single (.storeDone live computed store (ok.completes_store live computed store _))
  · next load =>
      have addressed : e.ooo.Addressed s := ⟨live, computed, load⟩
      split at done
      · split at done
        · cases done
          exact .single (.delay addressed hit)
        · next head => exact lsuFill_steps ok addressed (fun _ => by simpa using head) done
      · next cached =>
          have below : (e.ooo.slotEntry .lsu s).ir.memAddr < mmioBase := BitVec.not_le.mp cached
          have probed : BackStep vm cfg e
              { e with world := (vm.probeLevel e.world (e.ooo.slotEntry .lsu s).ir.memAddr).2 } := .probe
          have device : mmioBase ≤ (e.ooo.slotEntry .lsu s).ir.memAddr →
              (e.ooo.latch .lsu s).robIdx = e.ooo.robHead := fun above => absurd above cached
          split at done
          · exact (ReflTransGen.single probed).trans (lsuFill_steps (probed.ok ok) addressed device done)
          · next slow =>
              have missed : (vm.probeLevel e.world (e.ooo.slotEntry .lsu s).ir.memAddr).1 ≠ 0 := by
                intro level
                unfold OOOState.slotEntry at level
                rw [level] at slow
                exact slow rfl
              rcases mshrFindOrAlloc_cases e.ooo ((e.ooo.slotEntry .lsu s).ir.memAddr &&& ~~~(63 : Word))
                (levelToLat (vm.probeLevel e.world (e.ooo.slotEntry .lsu s).ir.memAddr).1) with
                full | ⟨m, mshr, allocated, line, lines⟩
              · unfold OOOState.slotEntry at full
                rw [full] at done
                cases done
                exact .single probed
              · unfold OOOState.slotEntry at allocated
                rw [allocated] at done
                cases done
                exact .tail (.single probed) (.miss addressed below missed line lines)

variable (cfg) in
/-- The first visit: the address is computed and the access starts. -/
theorem lsuFirst_cases (ok : e.ooo.Ok) {s : Fin 2} (live : e.ooo.Live .lsu s)
    (hit : (e.ooo.latch .lsu s).mshrIdx = none) (first : (e.ooo.latch .lsu s).cyclesRem = -1)
    (done : (do
      let (ir, sys) ← irExecute (vm.perf e.world) (operands e.ooo (e.ooo.latch .lsu s)) e.world.sys
      lsuStart vm { e.setSys sys with
        ooo := e.ooo.setRob (e.ooo.latch .lsu s).robIdx { e.ooo.rob (e.ooo.latch .lsu s).robIdx with ir := ir } } s) =
      some e') :
    ∃ e₁ run, (e.ooo.slotEntry .lsu s).ir.execFn.pure = some run ∧
      e₁ = { e with
        ooo := e.ooo.setRob (e.ooo.latch .lsu s).robIdx
          { e.ooo.slotEntry .lsu s with ir := run (operands e.ooo (e.ooo.latch .lsu s)) } } ∧
      BackStep vm cfg e e₁ ∧ e₁.ooo.Computed s ∧ e₁.lsuStart vm s = some e' := by
  obtain ⟨run, executor⟩ := ExecFn.isMemory_pure (ok.lsu_pure live)
  have executed : irExecute (vm.perf e.world) (operands e.ooo (e.ooo.latch .lsu s)) e.world.sys =
      some (run (operands e.ooo (e.ooo.latch .lsu s)), e.world.sys) := by
    unfold irExecute
    rw [show (operands e.ooo (e.ooo.latch .lsu s)).execFn.pure = some run from executor]
  rw [executed] at done
  refine ⟨_, run, executor, rfl, .address live ⟨hit, first⟩ executor, ?_, done⟩
  obtain ⟨inst, src1, src2⟩ := pure_sameInst (operands e.ooo (e.ooo.latch .lsu s)) executor
  have entry := e.ooo.rob_setRob_self (e.ooo.latch .lsu s).robIdx
    { e.ooo.slotEntry .lsu s with ir := run (operands e.ooo (e.ooo.latch .lsu s)) }
  refine ⟨?_, ?_, run, ?_, ?_⟩
  · exact (congrArg (fun entry => entry.ir.src1Val) entry).trans src1
  · exact (congrArg (fun entry => entry.ir.src2Val) entry).trans src2
  · exact (congrArg (fun entry => entry.ir.execFn.pure) entry).trans ((congrArg ExecFn.pure inst.execFn).trans executor)
  · have ir := congrArg ROBEntry.ir entry
    exact (congrArg run ir).trans ((pure_idempotent executor _).trans ir.symm)

/-- What a visit to a slot of the LSU does. -/
inductive LsuVisit (vm : VMem σ) (cfg : OooConfig β) (e : Engine σ β) (s : Fin 2) (e' : Engine σ β) : Prop where
  | idle (same : e' = e)
  | flushed (valid : (e.ooo.latch .lsu s).valid = true) (flushed : (e.ooo.latch .lsu s).flushed = true)
      (done : e.lsuFlushed vm s = some e')
  | first {e₁ : Engine σ β} {run : IRInst → IRInst} (live : e.ooo.Live .lsu s)
      (hit : (e.ooo.latch .lsu s).mshrIdx = none) (executor : (e.ooo.slotEntry .lsu s).ir.execFn.pure = some run)
      (same : e₁ = { e with
        ooo := e.ooo.setRob (e.ooo.latch .lsu s).robIdx
          { e.ooo.slotEntry .lsu s with ir := run (operands e.ooo (e.ooo.latch .lsu s)) } })
      (step : BackStep vm cfg e e₁) (computed : e₁.ooo.Computed s) (done : e₁.lsuStart vm s = some e')
  | waited (addressed : e.ooo.Addressed s) (hit : (e.ooo.latch .lsu s).mshrIdx = none)
      (head : (e.ooo.latch .lsu s).robIdx = e.ooo.robHead) (done : e.lsuFill vm s none = some e')
  | missed {m : MshrIdx} (addressed : e.ooo.Addressed s) (index : (e.ooo.latch .lsu s).mshrIdx = some m)
      (cached : (e.ooo.slotEntry .lsu s).ir.memAddr < mmioBase) (done : e.lsuFill vm s (some m) = some e')

variable (cfg) in
theorem lsuSlot_visit (ok : e.ooo.Ok) {s : Fin 2} (done : e.lsuSlot vm s = some e') : LsuVisit vm cfg e s e' := by
  unfold lsuSlot at done
  simp only at done
  split at done
  · cases done
    exact .idle rfl
  · next valid =>
      have valid : (e.ooo.latch .lsu s).valid = true := by simpa using valid
      cases flushed : (e.ooo.latch .lsu s).flushed with
      | true =>
          rw [flushed, Bool.or_true, if_pos rfl] at done
          exact .flushed valid flushed done
      | false =>
          have live : e.ooo.Live .lsu s := ⟨valid, flushed⟩
          have entryValid : (e.ooo.rob (e.ooo.latch .lsu s).robIdx).valid = true := (ok.inv.live_entry live).1
          rw [if_neg (by simp [flushed, entryValid])] at done
          split at done
          · next hit =>
              split at done
              · next first =>
                  obtain ⟨e₁, run, executor, same, step, computed, started⟩ := lsuFirst_cases cfg ok live hit first done
                  exact .first live hit executor same step computed started
              · next visited =>
                  obtain ⟨addressed, cycles⟩ := ok.delayed s live hit visited
                  split at done
                  · cases done
                    exact .idle rfl
                  · next atHead =>
                      refine .waited addressed hit ?_ done
                      by_contra different
                      exact atHead ⟨cycles, different⟩
          · next m index =>
              split at done
              · cases done
                exact .idle rfl
              · obtain ⟨addressed, cached⟩ := ok.missed s m live index
                exact .missed addressed index cached done

theorem lsuSlot_steps (ok : e.ooo.Ok) {s : Fin 2} (done : e.lsuSlot vm s = some e') :
    ReflTransGen (BackStep vm cfg) e e' := by
  cases lsuSlot_visit cfg ok done with
  | idle same =>
      rw [same]
  | flushed valid flushed done => exact lsuFlushed_steps valid flushed done
  | first live hit executor same step computed started =>
      have steps : ReflTransGen (BackStep vm cfg) _ e' :=
        lsuStart_steps (step.ok ok) ⟨same ▸ live.valid, same ▸ live.kept⟩ computed (same ▸ hit) started
      exact (ReflTransGen.single step).trans steps
  | waited addressed hit head filled => exact lsuFill_steps ok addressed (fun _ => head) filled
  | missed addressed index cached filled =>
      exact lsuFill_steps ok addressed (fun above => absurd above (BitVec.not_le.mpr cached)) filled

/-! ## Issue -/

theorem issueSlot_steps (e : Engine σ β) (eu : EU) (s : Fin 2) :
    ReflTransGen (BackStep vm cfg) e { e with ooo := OOOState.issueSlot eu e.ooo s } := by
  unfold OOOState.issueSlot
  split
  · exact .refl
  · next empty =>
      split
      · exact .refl
      · next k chosen => exact .single (.issue (by simpa using empty) chosen)

theorem issueUnit_steps (e : Engine σ β) (eu : EU) :
    ReflTransGen (BackStep vm cfg) e { e with ooo := e.ooo.issueUnit eu } := by
  unfold OOOState.issueUnit
  generalize eu.slots = slots
  induction slots generalizing e with
  | nil => exact .refl
  | cons s rest ih =>
      exact (issueSlot_steps e eu s).trans (ih { e with ooo := OOOState.issueSlot eu e.ooo s })

theorem stageIs_steps (e : Engine σ β) : ReflTransGen (BackStep vm cfg) e { e with ooo := e.ooo.stageIs } :=
  ((issueUnit_steps e .int).trans (issueUnit_steps { e with ooo := e.ooo.issueUnit .int } .mul)).trans
    (issueUnit_steps { e with ooo := (e.ooo.issueUnit .int).issueUnit .mul } .lsu)

/-! ## The back end of a cycle -/

theorem backSteps_ok (steps : ReflTransGen (BackStep vm cfg) e e') (ok : e.ooo.Ok) : e'.ooo.Ok := by
  induction steps with
  | refl => exact ok
  | tail _ step ih => exact step.ok ih

theorem unit_steps {step : Engine σ β → Fin 2 → Option (Engine σ β)}
    (slot : ∀ (e e' : Engine σ β) s, e.ooo.Ok → step e s = some e' → ReflTransGen (BackStep vm cfg) e e')
    {slots : List (Fin 2)} (ok : e.ooo.Ok) (done : e.unit step slots = some e') :
    ReflTransGen (BackStep vm cfg) e e' := by
  unfold unit at done
  induction slots generalizing e with
  | nil =>
      cases done
      exact .refl
  | cons s rest ih =>
      simp only [List.foldlM_cons, Option.bind_eq_bind, Option.bind_eq_some_iff] at done
      obtain ⟨e₁, first, others⟩ := done
      have steps := slot e e₁ s ok first
      exact steps.trans (ih (backSteps_ok steps ok) others)

/-- The back end leaves the decoded group alone or discards it. -/
theorem BackStep.idRn (step : e.BackStep vm cfg e') :
    e'.ooo.latchIdRn = e.ooo.latchIdRn ∨ ∀ s, (e'.ooo.latchIdRn s).valid = false := by
  cases step with
  | commit live ready ordered sound room stored checked =>
      rw [(commits_of_checked stored checked).ooo]
      exact .inl (OOOState.afterCommit_frame e.ooo).idRn
  | exec bpred fault unit live run completes faulted resolved => exact .inl completes.front.1
  | redirect live run completes control wrong target => exact .inr fun _ => rfl
  | storeDone live computed store completes => exact .inl completes.front.1
  | loadFault addressed outside completes => exact .inl completes.front.1
  | fill addressed device mapped read completes => exact .inl completes.front.1
  | _ => exact .inl rfl

theorem BackStep.tidy (step : e.BackStep vm cfg e') (tidy : e.ooo.Tidy) : e'.ooo.Tidy := by
  unfold OOOState.Tidy at *
  rcases step.idRn with same | discarded
  · rw [same]
    exact tidy
  · intro valid
    rw [discarded 1] at valid
    cases valid

theorem backSteps_tidy (steps : ReflTransGen (BackStep vm cfg) e e') (tidy : e.ooo.Tidy) : e'.ooo.Tidy := by
  induction steps with
  | refl => exact tidy
  | tail _ step ih => exact step.tidy ih

end Engine

end Sustemu
