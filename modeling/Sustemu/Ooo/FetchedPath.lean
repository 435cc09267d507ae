import Sustemu.Ooo.Completion

/-!
# The fetched path

The instructions that were fetched and not flushed: the committed ones and then
those in flight. Fetch appends to this list and a misprediction cuts it; every
other phase only moves its instructions on, and leaves the predictor alone.
-/

set_option autoImplicit false

namespace Sustemu

open Lib Relation Engine

/-- The branch unit sends fetch elsewhere. -/
def IRInst.redirects (ir : IRInst) : Bool := isControl ir && (ir.dnpc != ir.predicted && inDram ir.dnpc)

namespace Node

/-- The instruction was mispredicted and fetch was sent elsewhere. -/
def recovered (x : Node) : Bool := x.ready && x.ir.redirects

/-- What becomes of an instruction that stays where it is. -/
structure Settles (x y : Node) : Prop where
  pc : y.ir.pc = x.ir.pc
  raw : y.ir.raw = x.ir.raw
  recovered : y.recovered = x.recovered
  waits : y.ready = false → controlOpcode y.ir.raw = true →
    x.ready = false ∧ y.ir.rasTopSnap = x.ir.rasTopSnap ∧ y.ir.rasCntSnap = x.ir.rasCntSnap

theorem Settles.refl (x : Node) : x.Settles x := ⟨rfl, rfl, rfl, fun waits _ => ⟨waits, rfl, rfl⟩⟩

theorem Settles.trans {x y z : Node} (first : x.Settles y) (second : y.Settles z) : x.Settles z where
  pc := second.pc.trans first.pc
  raw := second.raw.trans first.raw
  recovered := second.recovered.trans first.recovered
  waits := by
    intro waits control
    obtain ⟨waited, top, count⟩ := second.waits waits control
    rw [second.raw] at control
    obtain ⟨waited', top', count'⟩ := first.waits waited control
    exact ⟨waited', top.trans top', count.trans count'⟩

/-- A waiting instruction that completes as predicted. -/
theorem Settles.done {x y : Node} (waits : x.ready = false) (pc : y.ir.pc = x.ir.pc) (raw : y.ir.raw = x.ir.raw)
    (ready : y.ready = true) (agrees : y.ir.redirects = false) : x.Settles y where
  pc := pc
  raw := raw
  recovered := by
    unfold Node.recovered
    rw [waits, agrees, Bool.and_false, Bool.false_and]
  waits := fun waits => nomatch ready.symm.trans waits

end Node

theorem IRInst.redirects_of_not_control {ir : IRInst} (other : isControl ir = false) : ir.redirects = false := by
  unfold redirects
  rw [other, Bool.false_and]

namespace OOOState

variable {o o' o'' : OOOState}

/-- The instructions in flight stay where they are. -/
structure Advances (o o' : OOOState) : Prop where
  head : o'.robHead = o.robHead
  count : o'.robCount = o.robCount
  idRn : o'.latchIdRn = o.latchIdRn
  ifId : o'.latchIfId = o.latchIfId
  nodes : ∀ i, (o.rob i).node.Settles (o'.rob i).node

theorem Advances.same (rob : o'.rob = o.rob) (head : o'.robHead = o.robHead) (count : o'.robCount = o.robCount)
    (idRn : o'.latchIdRn = o.latchIdRn) (ifId : o'.latchIfId = o.latchIfId) : o.Advances o' :=
  ⟨head, count, idRn, ifId, fun _ => rob ▸ .refl _⟩

theorem Advances.refl (o : OOOState) : o.Advances o := .same rfl rfl rfl rfl rfl

theorem Advances.trans (first : o.Advances o') (second : o'.Advances o'') : o.Advances o'' :=
  ⟨second.head.trans first.head, second.count.trans first.count, second.idRn.trans first.idRn,
    second.ifId.trans first.ifId, fun i => (first.nodes i).trans (second.nodes i)⟩

theorem Advances.update {i : RobIdx} {entry : ROBEntry} (rob : o'.rob = setAt o.rob i entry)
    (head : o'.robHead = o.robHead) (count : o'.robCount = o.robCount) (idRn : o'.latchIdRn = o.latchIdRn)
    (ifId : o'.latchIfId = o.latchIfId) (settles : (o.rob i).node.Settles entry.node) : o.Advances o' := by
  refine ⟨head, count, idRn, ifId, fun j => ?_⟩
  rw [rob]
  by_cases here : j = i
  · rw [here, setAt_self]
    exact settles
  · rw [setAt_of_ne here]
    exact .refl _

theorem Advances.completes {eu : EU} {s : Fin 2} {entry : ROBEntry} {result : Word}
    (completes : o.Completes eu s entry result o') (settles : (o.slotEntry eu s).node.Settles entry.node) : o.Advances o' :=
  .update completes.rob completes.head completes.count completes.front.1 completes.front.2.1 settles

theorem Advances.path (advances : o.Advances o') : List.Forall₂ Node.Settles o.path o'.path := by
  have fetched : o'.fetched = o.fetched := by
    unfold OOOState.fetched
    rw [advances.idRn, advances.ifId]
  unfold OOOState.path OOOState.live
  rw [fetched, advances.head, advances.count]
  refine List.rel_append ?_ (List.forall₂_same.mpr fun x _ => .refl x)
  rw [List.forall₂_map_left_iff, List.forall₂_map_right_iff]
  exact List.forall₂_same.mpr fun i _ => advances.nodes i

/-- Only the INT unit executes branches and jumps. -/
theorem Ok.straight (ok : o.Ok) {eu : EU} {s : Fin 2} (live : o.Live eu s) (unit : eu ≠ .int) :
    controlOpcode (o.slotEntry eu s).ir.raw = false := by
  cases control : controlOpcode (o.slotEntry eu s).ir.raw with
  | false => rfl
  | true =>
      have unitOf := (ok.inv.placed.latched _ _ live.valid live.kept).euType
      exact absurd (unitOf.trans (classify_control control)) unit

theorem Ok.control (ok : o.Ok) {eu : EU} {s : Fin 2} (live : o.Live eu s) {ir : IRInst}
    (kind : ir.itype = (o.slotEntry eu s).ir.execFn.itype) (control : isControl ir = true) :
    controlOpcode (o.slotEntry eu s).ir.raw = true := by
  have fn : (o.slotEntry eu s).ir.execFn = (irSelect (o.slotEntry eu s).ir.raw).2.1 :=
    (ok.decoded _ (ok.inv.live_entry live).1).1.fn
  rw [isControl, kind, fn] at control
  exact controlOpcode_of_isControl control

theorem Ok.not_control (ok : o.Ok) {eu : EU} {s : Fin 2} (live : o.Live eu s) (unit : eu ≠ .int) {ir : IRInst}
    (kind : ir.itype = (o.slotEntry eu s).ir.execFn.itype) : isControl ir = false := by
  cases control : isControl ir with
  | false => rfl
  | true => cases (ok.straight live unit).symm.trans (ok.control live kind control)

theorem Ok.addressed_not_control (ok : o.Ok) {s : Fin 2} (live : o.Live .lsu s) (computed : o.Computed s) :
    isControl (o.slotEntry .lsu s).ir = false := by
  obtain ⟨run, executor, fixed⟩ := computed.done
  have kind := pure_itype executor (o.slotEntry .lsu s).ir
  rw [fixed] at kind
  exact ok.not_control live (by decide) kind

end OOOState

namespace Engine

variable {σ β : Type} {vm : VMem σ} {cfg : OooConfig β} {e e' e'' : Engine σ β}

/-- The instructions fetched and not flushed, oldest first. -/
def fetchedPath (e : Engine σ β) : List Node := (commits e.log).map ROBEntry.node ++ e.ooo.path

/-- The fetched path before the instruction in a slot of `ooo_unit_int`. -/
def olderPath (e : Engine σ β) (s : Fin 2) : List Node :=
  (commits e.log).map ROBEntry.node ++ e.ooo.before (e.ooo.latch .int s).robIdx

theorem fetchedPath_congr (path : e'.ooo.path = e.ooo.path) (log : commits e'.log = commits e.log) :
    e'.fetchedPath = e.fetchedPath := by
  unfold fetchedPath
  rw [path, log]

/-- The fetched path stays as it is, up to what its instructions compute, and so does the predictor. -/
structure Advances (e e' : Engine σ β) : Prop where
  path : List.Forall₂ Node.Settles e.fetchedPath e'.fetchedPath
  bpred : e'.bpred = e.bpred

theorem forall₂_settles_trans {xs ys zs : List Node} (first : List.Forall₂ Node.Settles xs ys)
    (second : List.Forall₂ Node.Settles ys zs) : List.Forall₂ Node.Settles xs zs := by
  induction first generalizing zs with
  | nil =>
      cases second
      exact .nil
  | cons head tail ih =>
      cases second with
      | cons head' tail' => exact .cons (head.trans head') (ih tail')

theorem Advances.same (path : e'.fetchedPath = e.fetchedPath) (bpred : e'.bpred = e.bpred) : e.Advances e' :=
  ⟨path ▸ List.forall₂_same.mpr fun x _ => .refl x, bpred⟩

theorem Advances.refl (e : Engine σ β) : e.Advances e := .same rfl rfl

theorem Advances.trans (first : e.Advances e') (second : e'.Advances e'') : e.Advances e'' :=
  ⟨forall₂_settles_trans first.path second.path, second.bpred.trans first.bpred⟩

theorem forall₂_fetchedPath (advances : e.ooo.Advances e'.ooo) (log : commits e'.log = commits e.log) :
    List.Forall₂ Node.Settles e.fetchedPath e'.fetchedPath := by
  unfold fetchedPath
  rw [log]
  exact List.rel_append (List.forall₂_same.mpr fun x _ => .refl x) advances.path

theorem Advances.of_ooo (advances : e.ooo.Advances e'.ooo) (log : commits e'.log = commits e.log)
    (bpred : e'.bpred = e.bpred) : e.Advances e' := ⟨forall₂_fetchedPath advances log, bpred⟩

/-! ## Store buffer and commit -/

theorem drainStoreBuf_advances (done : e.drainStoreBuf vm cfg = some e') : e.Advances e' := by
  unfold drainStoreBuf at done
  simp only at done
  split at done
  · cases done
    exact .refl _
  split at done
  · cases done
    exact .same rfl rfl
  obtain ⟨world, _, rfl⟩ := Option.map_eq_some_iff.mp done
  exact .same (fetchedPath_congr rfl (commits_quiet _ (by simp))) rfl

theorem difftestStep_bpred (stepped : e.difftestStep vm cfg = some e') : e'.bpred = e.bpred := by
  simp only [difftestStep, Option.bind_eq_bind, Option.bind_eq_some_iff] at stepped
  obtain ⟨_, _, _, _, done⟩ := stepped
  split at done
  · obtain ⟨_, _, done⟩ := Option.bind_eq_some_iff.mp done
    cases done
    rfl
  · obtain ⟨_, _, done⟩ := Option.bind_eq_some_iff.mp done
    cases done
    rfl

theorem difftestCheck_bpred {entry : ROBEntry} (checked : e.difftestCheck vm cfg entry = some e') : e'.bpred = e.bpred := by
  simp only [difftestCheck, Option.bind_eq_bind, Option.bind_eq_some_iff] at checked
  obtain ⟨e₁, stepped, rest⟩ := checked
  rw [← difftestStep_bpred stepped]
  split at rest
  · cases rest
    rfl
  · cases rest
    rfl
  split at rest
  · split at rest
    · cases rest
      rfl
    split at rest
    · cases rest
      rfl
    · cases rest
      rfl
  · split at rest
    · cases rest
      rfl
    · cases rest
      rfl

theorem commitOne_bpred {goesOn : Bool} (done : e.commitOne vm cfg = some (e', goesOn)) : e'.bpred = e.bpred := by
  obtain ⟨tcIr, lines, traced, _⟩ := commitTrace_eq cfg e (e.ooo.rob e.ooo.robHead).ir
  unfold commitOne at done
  simp only [traced] at done
  split at done
  · cases done
    rfl
  split at done
  · cases done
    rfl
  split at done
  · cases done
  split at done
  · cases done
    rfl
  simp only [Option.bind_eq_bind, Option.bind_eq_some_iff] at done
  obtain ⟨e₁, stored, rest⟩ := done
  have kept : e₁.bpred = e.bpred := by
    rcases commitStore_cases stored with ⟨_, _, rfl⟩ | ⟨_, _, _, _, rfl⟩ | ⟨_, rfl⟩ <;> rfl
  split at rest
  · obtain ⟨e₂, checked, same⟩ := Option.bind_eq_some_iff.mp rest
    cases same
    exact (difftestCheck_bpred checked).trans kept
  · cases rest
    exact kept

/-- A commit moves the border between the committed instructions and those in flight. -/
theorem Commits.fetchedPath (step : Commits vm e e') (inv : e.ooo.Inv) (live : e.ooo.robCount ≠ 0) :
    e'.fetchedPath = e.fetchedPath := by
  obtain ⟨extra, log, quiet⟩ := step.log
  have newLog : commits e'.log = commits e.log ++ [e.ooo.rob e.ooo.robHead] := by
    rw [log, List.append_cons, commits_quiet, commits_append]
    · rfl
    · intro event member entry value same
      obtain ⟨_, mismatch⟩ := quiet event member
      cases same.symm.trans mismatch
  unfold Engine.fetchedPath
  rw [newLog, step.ooo, (OOOState.afterCommit_frame e.ooo).path inv.renamed live, List.map_append, List.append_assoc]
  rfl

theorem commitOne_advances (ok : e.ooo.Ok) {goesOn : Bool} (done : e.commitOne vm cfg = some (e', goesOn)) :
    e.Advances e' := by
  by_cases stops : e.ooo.robCount = 0 ∨ !(e.ooo.rob e.ooo.robHead).valid ∨ !(e.ooo.rob e.ooo.robHead).ready
  · have stopped : e.commitOne vm cfg = some (e, false) := if_pos stops
    cases stopped.symm.trans done
    exact .refl _
  · simp only [not_or, Bool.not_eq_true', Bool.not_eq_false] at stops
    have bpred := commitOne_bpred done
    obtain ⟨tcIr, lines, quiet, cases⟩ := commitOne_cases done
    have traced : commits (e.log ++ lines) = commits e.log := commits_quiet _ fun event member entry value same => by
      obtain ⟨_, _, line⟩ := quiet event member
      cases same.symm.trans line
    rcases cases with ⟨_, rfl⟩ | ⟨_, commits⟩
    · exact .same (fetchedPath_congr rfl traced) rfl
    · exact .same ((commits.fetchedPath ok.inv stops.1).trans (fetchedPath_congr rfl traced)) bpred

theorem commitLoop_advances {turns : Nat} (ok : e.ooo.Ok) (done : commitLoop vm cfg turns e = some e') : e.Advances e' := by
  induction turns generalizing e with
  | zero =>
      cases done
      exact .refl _
  | succ turns ih =>
      simp only [commitLoop, Option.bind_eq_bind, Option.bind_eq_some_iff] at done
      obtain ⟨⟨e₁, goesOn⟩, one, rest⟩ := done
      have first := commitOne_advances ok one
      split at rest
      · exact first.trans (ih (backSteps_ok (commitOne_steps one) ok) rest)
      · cases rest
        exact first

/-! ## Unit slots -/

theorem mulFinish_advances (ok : e.ooo.Ok) {s : Fin 2} (valid : (e.ooo.latch .mul s).valid = true)
    (done : e.mulFinish vm s = some e') : e.Advances e' := by
  have live : e.ooo.Live .mul s := live_of_valid ok.inv (by decide) valid
  have waits := ok.inv.live_entry live
  have entryValid : ((e.ooo.dropLatch .mul s).rob (e.ooo.latch .mul s).robIdx).valid = true := waits.1
  unfold mulFinish at done
  simp only at done
  rw [if_neg (by simp [entryValid])] at done
  obtain ⟨⟨ir, sys⟩, run, rfl⟩ := Option.map_eq_some_iff.mp done
  have same := (executed_sameInst ok.inv live run).1
  have kind := irExecute_itype run
  have other : isControl ir = false := ok.not_control live (by decide) kind
  refine .of_ooo (.completes (ok.inv.completes_finishExec live ir) ?_) rfl rfl
  exact .done waits.2 same.pc same.raw rfl (IRInst.redirects_of_not_control other)

theorem mulSlot_advances (ok : e.ooo.Ok) {s : Fin 2} (done : e.mulSlot vm s = some e') : e.Advances e' := by
  cases mulSlot_visit ok done with
  | idle same =>
      rw [same]
      exact .refl _
  | count live same =>
      rw [same]
      exact .same rfl rfl
  | @first cycles live finished =>
      obtain ⟨ok', -, live'⟩ := live_counted ok live cycles
      have counted : e.Advances { e with
          ooo := e.ooo.setLatch .mul s { e.ooo.latch .mul s with cyclesRem := cycles } } := .same rfl rfl
      exact counted.trans (mulFinish_advances ok' live'.valid finished)
  | last live finished => exact mulFinish_advances ok live.valid finished

/-- A load or store whose address is known is neither branch nor jump. -/
theorem settles_addressed (ok : e.ooo.Ok) {s : Fin 2} (live : e.ooo.Live .lsu s) (computed : e.ooo.Computed s) {y : Node}
    (pc : y.ir.pc = (e.ooo.slotEntry .lsu s).ir.pc) (raw : y.ir.raw = (e.ooo.slotEntry .lsu s).ir.raw)
    (ready : y.ready = true) (itype : y.ir.itype = (e.ooo.slotEntry .lsu s).ir.itype) :
    (e.ooo.slotEntry .lsu s).node.Settles y := by
  refine .done (ok.inv.live_entry live).2 pc raw ready (IRInst.redirects_of_not_control ?_)
  rw [isControl, itype]
  exact ok.addressed_not_control live computed

theorem lsuFill_advances (ok : e.ooo.Ok) {s : Fin 2} {mshr : Option MshrIdx} (addressed : e.ooo.Addressed s)
    (done : e.lsuFill vm s mshr = some e') : e.Advances e' := by
  unfold lsuFill at done
  simp only at done
  split at done
  · cases done
    refine .of_ooo (.completes (ok.inv.completes_lsuFault addressed.live) ?_) rfl rfl
    exact settles_addressed ok addressed.live addressed.computed rfl rfl rfl rfl
  · obtain ⟨⟨raw, world⟩, _, rfl⟩ := Option.map_eq_some_iff.mp done
    refine .of_ooo (.completes (ok.inv.completes_lsuFinish addressed.live mshr _) ?_) (commits_quiet _ (by simp)) rfl
    exact settles_addressed ok addressed.live addressed.computed rfl rfl rfl rfl

theorem lsuFlushed_advances {s : Fin 2} (done : e.lsuFlushed vm s = some e') : e.Advances e' := by
  unfold lsuFlushed at done
  simp only at done
  split at done
  · cases done
    exact .same rfl rfl
  next m _ =>
  split at done
  · cases done
    exact .refl _
  · obtain ⟨_, _, rfl⟩ := Option.map_eq_some_iff.mp done
    obtain ⟨mshr, released, _⟩ := e.ooo.mshrRelease_eq s m
    simp only [released]
    exact .same rfl rfl

theorem lsuStart_advances (ok : e.ooo.Ok) {s : Fin 2} (live : e.ooo.Live .lsu s) (computed : e.ooo.Computed s)
    (done : e.lsuStart vm s = some e') : e.Advances e' := by
  unfold lsuStart at done
  simp only at done
  split at done
  · cases done
    exact .of_ooo (.update rfl rfl rfl rfl rfl (settles_addressed ok live computed rfl rfl rfl rfl)) rfl rfl
  next load =>
  have addressed : e.ooo.Addressed s := ⟨live, computed, load⟩
  split at done
  · split at done
    · cases done
      exact .same rfl rfl
    · exact lsuFill_advances ok addressed done
  split at done
  · have probed : e.Advances { e with world := (vm.probeLevel e.world (e.ooo.slotEntry .lsu s).ir.memAddr).2 } := .same rfl rfl
    exact probed.trans (lsuFill_advances ok addressed done)
  rcases mshrFindOrAlloc_cases e.ooo ((e.ooo.slotEntry .lsu s).ir.memAddr &&& ~~~(63 : Word))
    (levelToLat (vm.probeLevel e.world (e.ooo.slotEntry .lsu s).ir.memAddr).1) with
    full | ⟨m, mshr, allocated, _, _⟩
  · unfold OOOState.slotEntry at full
    rw [full] at done
    cases done
    exact .same rfl rfl
  · unfold OOOState.slotEntry at allocated
    rw [allocated] at done
    cases done
    exact .same rfl rfl

variable (cfg) in
include cfg in
theorem lsuSlot_advances (ok : e.ooo.Ok) {s : Fin 2} (done : e.lsuSlot vm s = some e') : e.Advances e' := by
  cases lsuSlot_visit cfg ok done with
  | idle same =>
      rw [same]
      exact .refl _
  | flushed valid flushed done => exact lsuFlushed_advances done
  | @first _ run live hit executor same step computed started =>
      have waits : (e.ooo.slotEntry .lsu s).ready = false := (ok.inv.live_entry live).2
      have inst := (pure_sameInst (operands e.ooo (e.ooo.latch .lsu s)) executor).1
      have settles : (e.ooo.slotEntry .lsu s).node.Settles
          ⟨run (operands e.ooo (e.ooo.latch .lsu s)), (e.ooo.slotEntry .lsu s).ready, (e.ooo.slotEntry .lsu s).storeData⟩ := by
        refine ⟨inst.pc, inst.raw, ?_, fun _ control => ?_⟩
        · unfold Node.recovered
          rw [show (e.ooo.slotEntry .lsu s).node.ready = false from waits, waits]
          rfl
        · have straight := ok.straight live (by decide)
          cases straight.symm.trans ((congrArg controlOpcode inst.raw).symm.trans control)
      have ok' := step.ok ok
      subst same
      have addressed : e.Advances { e with
          ooo := e.ooo.setRob (e.ooo.latch .lsu s).robIdx
            { e.ooo.slotEntry .lsu s with ir := run (operands e.ooo (e.ooo.latch .lsu s)) } } :=
        .of_ooo (.update rfl rfl rfl rfl rfl settles) rfl rfl
      exact addressed.trans (lsuStart_advances ok' ⟨live.valid, live.kept⟩ computed started)
  | waited addressed hit head filled => exact lsuFill_advances ok addressed filled
  | missed addressed index cached filled => exact lsuFill_advances ok addressed filled

/-! ## Issue, rename and decode -/

theorem stageIs_advances (o : OOOState) : o.Advances o.stageIs := by
  have slot : ∀ (o : OOOState) eu s, o.Advances (OOOState.issueSlot eu o s) := by
    intro o eu s
    unfold OOOState.issueSlot
    split
    · exact .refl o
    split
    · exact .refl o
    exact .same rfl rfl rfl rfl rfl
  have unit : ∀ (o : OOOState) (eu : EU), o.Advances (o.issueUnit eu) := by
    intro o eu
    unfold OOOState.issueUnit
    induction eu.slots generalizing o with
    | nil => exact .refl o
    | cons s rest ih => exact (slot o eu s).trans (ih _)
  exact ((unit o .int).trans (unit _ .mul)).trans (unit _ .lsu)

theorem FrontStep.advances (noFetch : ∀ w addr len, vm.ifetch w addr len = none) (ok : e.ooo.Ok)
    (step : e.FrontStep vm cfg e') : e.Advances e' := by
  cases step with
  | rename valid inOrder alone room names renames =>
      refine .same (fetchedPath_congr (renames.path ok.inv.renamed room valid inOrder) (commits_quiet _ ?_)) rfl
      split <;> simp
  | compact consumed left => exact .same (fetchedPath_congr (OOOState.path_compact consumed left) rfl) rfl
  | decode group consumed => exact .same (fetchedPath_congr (OOOState.path_decode consumed) rfl) rfl
  | fetch inOrder mapped read answer => cases (noFetch ..).symm.trans read
  | note => exact .same rfl rfl
  | skip unmapped => exact .same rfl rfl
  | tick => exact .same rfl rfl

theorem frontSteps_advances (noFetch : ∀ w addr len, vm.ifetch w addr len = none) (ok : e.ooo.Ok)
    (steps : ReflTransGen (FrontStep vm cfg) e e') : e.Advances e' := by
  induction steps with
  | refl => exact .refl _
  | tail before step ih => exact ih.trans (step.advances noFetch (frontSteps_ok before ok))

/-! ## The INT unit -/

/-- An instruction is fetched. For a control-flow instruction the stack is recorded before the predictor is asked. -/
structure Fetches (cfg : OooConfig β) (e : Engine σ β) (x : Node) (e' : Engine σ β) : Prop where
  path : e'.fetchedPath = e.fetchedPath ++ [x]
  waits : x.ready = false
  control : cfg.bpred.enabled = true → controlOpcode x.ir.raw = true →
    x.ir.rasTopSnap = cfg.bpred.rasTop e.bpred ∧ x.ir.rasCntSnap = cfg.bpred.rasCount e.bpred ∧
      e'.bpred = (cfg.bpred.predict e.bpred x.ir.pc x.ir.raw).2
  other : controlOpcode x.ir.raw = false → e'.bpred = e.bpred

/-- Every phase but fetch and the slots of the INT unit keeps the fetched path and the predictor. -/
theorem Phase.advances (ok : e.ooo.Ok) (tidy : e.ooo.Tidy) {phase : Phase} (notFetch : phase ≠ .fetch)
    (notInt : ∀ s, phase ≠ .slot .int s) (done : phase.step vm cfg e = some e') : e.Advances e' := by
  cases phase with
  | drain => exact drainStoreBuf_advances done
  | commit =>
      have reset : e.Advances { e with tcIr := [] } := .same rfl rfl
      exact reset.trans (commitLoop_advances (e := { e with tcIr := [] }) ok done)
  | mshr =>
      cases done
      exact .same rfl rfl
  | slot eu s =>
      cases eu with
      | int => exact absurd rfl (notInt s)
      | mul => exact mulSlot_advances ok done
      | lsu => exact lsuSlot_advances cfg ok done
  | issue =>
      cases done
      exact .of_ooo (stageIs_advances _) rfl rfl
  | rename =>
      -- Renaming does not depend on memory, so its steps are also steps over a memory that fetches nothing.
      exact frontSteps_advances (fun _ _ _ => rfl) ok (stageRn_steps { vm with ifetch := fun _ _ _ => none } cfg tidy done).1
  | decode =>
      cases done
      exact frontSteps_advances (fun _ _ _ => rfl) ok (stageId_steps { vm with ifetch := fun _ _ _ => none } cfg ok tidy).1
  | fetch => exact absurd rfl notFetch
  | tick =>
      cases done
      exact .same rfl rfl

end Engine

end Sustemu
