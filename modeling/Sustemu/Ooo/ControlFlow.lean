import Sustemu.Ooo.Path

/-!
# Control flow of committed instructions

Fetch runs ahead on predictions and a branch unit corrects it. `Node.Link` says
which program counter follows an instruction in flight: the predicted one until
it has executed, and then the one it computed, unless the instruction is of a
kind that nothing redirects fetch for. By it the committed instructions form a
control-flow path.
-/

set_option autoImplicit false

namespace Sustemu

open Lib Engine

def Node.pc (x : Node) : Word := x.ir.pc

/-- Fetch goes on where the instruction says: its target is in memory, it was
not fetched with a predicted target of zero, and a trap or a return from one
happens to target the next instruction. -/
structure IRInst.Followed (ir : IRInst) : Prop where
  target : inDram ir.dnpc = true
  predicted : ir.bpPredictedPc ≠ 0
  trap : ir.itype = .system → ir.dnpc = ir.snpc

theorem IRInst.followed_iff (ir : IRInst) : ir.Followed ↔
    inDram ir.dnpc = true ∧ ir.bpPredictedPc ≠ 0 ∧ (ir.itype = .system → ir.dnpc = ir.snpc) :=
  ⟨fun followed => ⟨followed.target, followed.predicted, followed.trap⟩, fun all => ⟨all.1, all.2.1, all.2.2⟩⟩

instance (ir : IRInst) : Decidable ir.Followed := decidable_of_iff' _ ir.followed_iff

/-- The program counter after an instruction in flight. -/
structure Node.Link (x : Node) (next : Word) : Prop where
  straight : controlOpcode x.ir.raw = true ∨ x.ir.bpPredictedPc = x.ir.snpc
  waiting : x.ready = false → x.ir.bpPredictedPc ≠ 0 → inDram (truncPc x.ir.bpPredictedPc) = true →
    next = truncPc x.ir.bpPredictedPc
  done : x.ready = true → x.ir.fault = false → x.ir.Followed → next = x.ir.dnpc

theorem truncPc_of_inDram {pc : Word} (mapped : inDram pc = true) : truncPc pc = pc := by
  obtain ⟨_, above⟩ := inDram_iff.mp mapped
  unfold truncPc
  apply BitVec.eq_of_toNat_eq
  rw [BitVec.toNat_and, show (0xffffffff : Word).toNat = 2 ^ 32 - 1 from rfl, Nat.and_two_pow_sub_one_eq_mod]
  exact Nat.mod_eq_of_lt (by omega)

/-! ## Execution -/

theorem classify_control {raw : Raw} (control : controlOpcode raw = true) : OOOState.classify raw = .int := by
  simp only [controlOpcode, Bool.or_eq_true, beq_iff_eq, opcodeOf_eq] at control
  unfold OOOState.classify
  rw [if_neg (by omega), if_neg (by omega)]

/-- An instruction of the MUL or LSU units is predicted to fall through. -/
theorem Node.Link.fallsThrough {x : Node} {next : Word} (link : x.Link next)
    (unit : OOOState.classify x.ir.raw ≠ .int) : x.ir.bpPredictedPc = x.ir.snpc := by
  rcases link.straight with control | straight
  · exact absurd (classify_control control) unit
  · exact straight

/-- A waiting instruction completes with the predicted target. -/
theorem Node.Link.complete {x y : Node} {next : Word} (link : x.Link next) (waits : x.ready = false)
    (same : x.ir.SameInst y.ir)
    (resolved : y.ir.fault = false → y.ir.Followed → y.ir.dnpc = y.ir.bpPredictedPc) : y.Link next where
  straight := by
    rw [same.raw, same.bpPredictedPc, same.snpc]
    exact link.straight
  waiting := by
    rw [same.bpPredictedPc]
    exact fun _ => link.waiting waits
  done := by
    intro _ sound followed
    have target := resolved sound followed
    have exact := truncPc_of_inDram followed.target
    rw [target, same.bpPredictedPc] at exact ⊢
    have mapped := followed.target
    rw [target, same.bpPredictedPc, ← exact] at mapped
    have nonzero := followed.predicted
    rw [same.bpPredictedPc] at nonzero
    rw [← exact]
    exact link.waiting waits nonzero mapped

theorem Node.Link.stillWaiting {x y : Node} {next : Word} (link : x.Link next) (waits : x.ready = false)
    (stays : y.ready = false) (same : x.ir.SameInst y.ir) : y.Link next where
  straight := by
    rw [same.raw, same.bpPredictedPc, same.snpc]
    exact link.straight
  waiting := by
    rw [same.bpPredictedPc]
    exact fun _ => link.waiting waits
  done := fun ready => nomatch stays.symm.trans ready

namespace OOOState

variable {o : OOOState}

/-- What an INT or MUL unit computes, when it agrees with the prediction. -/
theorem Ok.resolved {eu : EU} {s : Fin 2} {perf : Perf} {sys sys' : Sys} {ir : IRInst} {next : Word} (ok : o.Ok)
    (live : o.Live eu s) (run : irExecute perf (operands o (o.latch eu s)) sys = some (ir, sys'))
    (link : (o.slotEntry eu s).node.Link next)
    (agrees : eu = .int → isControl ir = true → ir.dnpc = ir.predicted) (sound : ir.fault = false)
    (followed : ir.Followed) : ir.dnpc = ir.bpPredictedPc := by
  have same := (executed_sameInst ok.inv live run).1
  have decoded := (ok.decoded _ (ok.inv.live_entry live).1).1
  have fn : (operands o (o.latch eu s)).execFn = (irSelect (o.slotEntry eu s).ir.raw).2.1 := decoded.fn
  have kind := irExecute_itype run
  cases control : (irSelect (o.slotEntry eu s).ir.raw).2.1.isControl with
  | true =>
      have unitOf := (ok.inv.placed.latched _ _ live.valid live.kept).euType
      have isInt : eu = .int := unitOf.trans (classify_control (controlOpcode_of_isControl control))
      have control' : isControl ir = true := by
        rw [isControl, kind, fn]
        exact control
      have agrees := agrees isInt control'
      rwa [IRInst.predicted, if_pos followed.predicted] at agrees
  | false =>
      have falls : ir.bpPredictedPc = ir.snpc := by
        rw [same.bpPredictedPc, same.snpc]
        rcases link.straight with opcode | straight
        · rcases isControl_of_controlOpcode opcode with jump | malformed
          · rw [show (o.slotEntry eu s).node.ir = (o.slotEntry eu s).ir from rfl, control] at jump
            cases jump
          · rw [irExecute_inv run (fn.trans malformed)] at sound
            cases sound
        · exact straight
      rw [falls]
      by_cases system : ir.itype = .system
      · exact followed.trap system
      · have next := irExecute_dnpc run (by rw [fn]; exact control) (by rw [← kind]; exact system)
        rw [next, same.snpc]
        rfl

/-- A load or store falls through. -/
theorem Ok.lsu_resolved {s : Fin 2} {next : Word} (ok : o.Ok) (live : o.Live .lsu s) (computed : o.Computed s)
    (link : (o.slotEntry .lsu s).node.Link next) : (o.slotEntry .lsu s).ir.dnpc = (o.slotEntry .lsu s).ir.bpPredictedPc := by
  have memory := ok.lsu_pure live
  have unit := (ok.inv.placed.latched _ _ live.valid live.kept).euType
  have falls : (o.slotEntry .lsu s).ir.bpPredictedPc = (o.slotEntry .lsu s).ir.snpc := by
    apply link.fallsThrough
    rw [show (o.slotEntry .lsu s).node.ir = (o.rob (o.latch .lsu s).robIdx).ir from rfl, ← unit]
    exact nofun
  obtain ⟨run, executor, done⟩ := computed.done
  have straight : (o.slotEntry .lsu s).ir.execFn.isControl = false := by
    cases fn : (o.slotEntry .lsu s).ir.execFn <;> first | rfl | (rw [fn] at memory; cases memory)
  have target := pure_dnpc executor straight (o.slotEntry .lsu s).ir
  rw [done] at target
  rw [falls, target]

end OOOState

/-! ## Committed instructions -/

/-- The committed instructions of a log. -/
def commits {σ : Type} (log : List (Event σ)) : List ROBEntry :=
  log.filterMap fun event =>
    match event with
    | .commit entry _ => some entry
    | _ => none

theorem commits_append {σ : Type} (log extra : List (Event σ)) : commits (log ++ extra) = commits log ++ commits extra :=
  List.filterMap_append ..

theorem commits_quiet {σ : Type} (log : List (Event σ)) {extra : List (Event σ)}
    (quiet : ∀ event ∈ extra, ∀ entry value, event ≠ .commit entry value) : commits (log ++ extra) = commits log := by
  have none : commits extra = [] := by
    apply List.filterMap_eq_nil_iff.mpr
    intro event member
    cases event with
    | commit entry value => exact absurd rfl (quiet _ member entry value)
    | pop | fill | drain | logLine | mismatch => rfl
  rw [commits_append, none, List.append_nil]

/-- Each instruction is at the program counter its predecessor computed, the first one at `pc`. -/
def ControlPath : Word → List ROBEntry → Prop
  | _, [] => True
  | pc, entry :: rest => entry.ir.pc = pc ∧ ControlPath entry.ir.dnpc rest

instance decidableControlPath : ∀ pc entries, Decidable (ControlPath pc entries)
  | _, [] => isTrue trivial
  | _, entry :: rest =>
      have := decidableControlPath entry.ir.dnpc rest
      inferInstanceAs (Decidable (_ ∧ _))

/-- The program counter after a list of instructions that starts at `pc`. -/
def nextAfter : Word → List ROBEntry → Word
  | pc, [] => pc
  | _, entry :: rest => nextAfter entry.ir.dnpc rest

theorem controlPath_concat {pc : Word} {entries : List ROBEntry} {entry : ROBEntry} (path : ControlPath pc entries)
    (here : entry.ir.pc = nextAfter pc entries) : ControlPath pc (entries ++ [entry]) := by
  induction entries generalizing pc with
  | nil => exact ⟨here, trivial⟩
  | cons first rest ih => exact ⟨path.1, ih path.2 here⟩

theorem nextAfter_concat (pc : Word) (entries : List ROBEntry) (entry : ROBEntry) :
    nextAfter pc (entries ++ [entry]) = entry.ir.dnpc := by
  induction entries generalizing pc with
  | nil => rfl
  | cons first rest ih => exact ih first.ir.dnpc

theorem nextAfter_inDram {pc : Word} {entries : List ROBEntry} (start : inDram pc = true)
    (followed : ∀ entry ∈ entries, entry.ir.Followed) : inDram (nextAfter pc entries) = true := by
  induction entries generalizing pc with
  | nil => exact start
  | cons first rest ih =>
      exact ih (followed first List.mem_cons_self).target fun entry member => followed entry (List.mem_cons_of_mem _ member)

namespace Engine

variable {σ β : Type} {vm : VMem σ} {cfg : OooConfig β} {e e' : Engine σ β}

/-- Everything in flight is linked, and the commits so far are a path that the instructions in flight continue. -/
structure Continues (pc : Word) (e : Engine σ β) : Prop where
  linked : Linked Node.pc Node.Link e.ooo.path (truncPc e.ooo.fetchPc)
  committed : (∀ entry ∈ commits e.log, entry.ir.Followed) → ControlPath pc (commits e.log) ∧
    leading Node.pc e.ooo.path (truncPc e.ooo.fetchPc) = nextAfter pc (commits e.log)

section Steps

variable {pc : Word}

theorem Continues.same (continues : e.Continues pc) (path : e'.ooo.path = e.ooo.path)
    (fetchPc : e'.ooo.fetchPc = e.ooo.fetchPc) (log : commits e'.log = commits e.log) : e'.Continues pc := by
  obtain ⟨linked, committed⟩ := continues
  refine ⟨?_, ?_⟩
  · rw [path, fetchPc]
    exact linked
  · rw [path, fetchPc, log]
    exact committed

/-- An entry changes in place. -/
theorem Continues.update (continues : e.Continues pc) (inv : e.ooo.Inv) {i : RobIdx} {y : Node}
    (valid : (e.ooo.rob i).valid = true)
    (path : e'.ooo.path = e.ooo.before i ++ y :: e.ooo.behind i) (fetchPc : e'.ooo.fetchPc = e.ooo.fetchPc)
    (log : commits e'.log = commits e.log) (same : y.pc = (e.ooo.rob i).node.pc)
    (keeps : ∀ next, (e.ooo.rob i).node.Link next → y.Link next) : e'.Continues pc := by
  obtain ⟨linked, committed⟩ := continues
  rw [OOOState.path_split inv.renamed valid] at linked committed
  refine ⟨?_, ?_⟩
  · rw [path, fetchPc]
    exact linked.replace same keeps
  · rw [path, fetchPc, log, leading_replace same]
    exact committed

theorem BackStep.continues (step : e.BackStep vm cfg e') (ok : e.ooo.Ok) (continues : e.Continues pc) :
    e'.Continues pc := by
  have inv := ok.inv
  cases step with
  | note quiet =>
      refine continues.same rfl rfl (commits_quiet _ ?_)
      rintro event member entry value rfl
      obtain ⟨_, _, line⟩ := quiet _ member
      cases line
  | timer mshr tick lines => exact continues.same rfl rfl rfl
  | drain waiting written => exact continues.same rfl rfl (commits_quiet _ (by simp))
  | commit live ready ordered sound room stored checked =>
      have commits_ := commits_of_checked stored checked
      have frame := OOOState.afterCommit_frame e.ooo
      obtain ⟨extra, log, quiet⟩ := commits_.log
      have path := frame.path inv.renamed live
      have newLog : commits (e.log ++ .commit (e.ooo.rob e.ooo.robHead) (commitValue e.ooo (e.ooo.rob e.ooo.robHead)) ::
          extra) = commits e.log ++ [e.ooo.rob e.ooo.robHead] := by
        rw [List.append_cons, commits_quiet, commits_append]
        · rfl
        · rintro event member entry value rfl
          obtain ⟨_, mismatch⟩ := quiet _ member
          cases mismatch
      obtain ⟨linked, committed⟩ := continues
      rw [path] at linked committed
      constructor
      · rw [commits_.ooo, frame.fetchPc]
        exact linked.2
      · rw [log, newLog, commits_.ooo, frame.fetchPc, nextAfter_concat]
        intro followed
        obtain ⟨before, here⟩ := committed fun entry member => followed entry (List.mem_append_left _ member)
        have last := followed _ (List.mem_append_right _ List.mem_cons_self)
        exact ⟨controlPath_concat before here, linked.1.done ready sound last⟩
  | exec bpred fault unit live run completes faulted resolved =>
      rename_i eu s ir sys o
      have same := (executed_sameInst inv live run).1
      refine continues.update inv (inv.live_entry live).1 (completes.path inv live) completes.front.2.2 rfl same.pc ?_
      intro next link
      refine link.complete (inv.live_entry live).2
        ⟨same.pc, same.snpc, same.raw, same.rs1, same.rs2, same.imm, same.execFn, same.bpPredictedPc, same.width, same.blank⟩ ?_
      intro sound followed
      obtain ⟨sound, checked⟩ := Bool.or_eq_false_iff.mp sound
      have agrees : eu = .int → isControl ir = true → ir.dnpc = ir.predicted := by
        intro isInt control
        rcases resolved isInt control with agrees | faults
        · exact agrees
        · rw [faults] at checked
          cases checked
      have target : ir.dnpc = ir.bpPredictedPc :=
        ok.resolved live run link agrees sound ⟨followed.target, followed.predicted, followed.trap⟩
      exact target
  | redirect live run completes control wrong target =>
      rename_i s ir sys o bpred stats
      have same := (executed_sameInst inv live run).1
      obtain ⟨linked, committed⟩ := continues
      rw [OOOState.path_split inv.renamed (inv.live_entry live).1] at linked committed
      have here := ((linked_append ..).mp linked).2.1
      have exact := truncPc_of_inDram target
      have samePc : (⟨ir, true, (e.ooo.slotEntry .int s).storeData⟩ : Node).pc = (e.ooo.slotEntry .int s).node.pc := same.pc
      refine ⟨?_, ?_⟩
      · rw [redirect_path ok live run completes]
        apply linked.cut samePc
        refine ⟨?_, nofun, fun _ _ _ => exact⟩
        rw [same.raw, same.bpPredictedPc, same.snpc]
        exact here.straight
      · rw [redirect_path ok live run completes, leading_replace samePc]
        exact committed
  | count live => exact continues.same rfl rfl rfl
  | discard mshr valid flushed lines filled => exact continues.same rfl rfl rfl
  | address live first executor =>
      rename_i s run
      have same := (OOOState.operands_sameInst e.ooo .lsu s).trans
        (pure_sameInst (operands e.ooo (e.ooo.latch .lsu s)) executor).1
      obtain ⟨valid, waits⟩ := inv.live_entry live
      refine continues.update inv valid (OOOState.path_update inv.renamed valid rfl rfl rfl rfl rfl) rfl rfl same.pc ?_
      exact fun next link => link.stillWaiting waits waits same
  | storeDone live computed store completes =>
      refine continues.update inv (inv.live_entry live).1 (completes.path inv live) completes.front.2.2 rfl rfl ?_
      intro next link
      exact link.complete (inv.live_entry live).2 (.refl _) fun _ _ => ok.lsu_resolved live computed link
  | delay addressed absent => exact continues.same rfl rfl rfl
  | probe => exact continues.same rfl rfl rfl
  | miss addressed cached missed line lines => exact continues.same rfl rfl rfl
  | loadFault addressed outside completes =>
      refine continues.update inv (inv.live_entry addressed.live).1 (completes.path inv addressed.live)
        completes.front.2.2 rfl rfl ?_
      intro next link
      exact link.complete (inv.live_entry addressed.live).2 ⟨rfl, rfl, rfl, rfl, rfl, rfl, rfl, rfl, id, fun _ => rfl⟩
        fun sound => nomatch sound
  | fill addressed device mapped read completes =>
      refine continues.update inv (inv.live_entry addressed.live).1 (completes.path inv addressed.live)
        completes.front.2.2 (commits_quiet _ (by simp)) rfl ?_
      intro next link
      exact link.complete (inv.live_entry addressed.live).2 ⟨rfl, rfl, rfl, rfl, rfl, rfl, rfl, rfl, id, fun _ => rfl⟩
        fun _ _ => ok.lsu_resolved addressed.live addressed.computed link
  | issue empty chosen => exact continues.same rfl rfl rfl

theorem FrontStep.continues (mapped : inDram pc = true) (step : e.FrontStep vm cfg e') (ok : e.ooo.Ok)
    (continues : e.Continues pc) : e'.Continues pc := by
  cases step with
  | note => exact continues.same rfl rfl rfl
  | rename valid inOrder alone room names renames =>
      refine continues.same (renames.path ok.inv.renamed room valid inOrder) renames.fetchPc (commits_quiet _ ?_)
      split <;> simp
  | compact consumed left => exact continues.same (OOOState.path_compact consumed left) rfl rfl
  | decode group consumed => exact continues.same (OOOState.path_decode consumed) rfl rfl
  | fetch inOrder mapped read answer =>
      rename_i s word _ _ taken next rasTop rasCnt
      obtain ⟨fetched, atPc, raw⟩ := irDecode_fetched e.cpu.gpr (word.setWidth 32) (truncPc e.ooo.fetchPc)
        (e.ooo.latchIfId s).ir
      obtain ⟨linked, committed⟩ := continues
      refine ⟨?_, ?_⟩
      · rw [setFetched, OOOState.path_fetch inOrder, linked_append, leading, Node.pc]
        refine ⟨?_, ?_, trivial⟩
        · rw [show _ = truncPc e.ooo.fetchPc from atPc]
          exact linked
        · refine ⟨?_, fun _ _ _ => rfl, fun ready => absurd ready Bool.false_ne_true⟩
          rcases answer with straight | ⟨_, control, _⟩
          · right
            rw [show _ = _ from fetched.decoded.snpc, atPc]
            exact straight
          · left
            rw [show _ = _ from raw]
            exact control
      · rw [setFetched, OOOState.path_fetch inOrder, leading_append, leading, Node.pc,
          show _ = truncPc e.ooo.fetchPc from atPc]
        exact committed
  | skip unmapped =>
      obtain ⟨linked, committed⟩ := continues
      refine ⟨?_, ?_⟩
      · apply linked.last
        intro x link
        refine ⟨link.straight, ?_, ?_⟩
        · intro waits nonzero inside
          rw [← link.waiting waits nonzero inside, unmapped] at inside
          cases inside
        · intro ready sound followed
          have inside := followed.target
          rw [← link.done ready sound followed, unmapped] at inside
          cases inside
      · intro followed
        obtain ⟨before, here⟩ := committed followed
        refine ⟨before, ?_⟩
        cases path : e.ooo.path with
        | nil =>
            rw [path, leading] at here
            rw [here, nextAfter_inDram mapped followed] at unmapped
            cases unmapped
        | cons x rest =>
            rw [path] at here
            change leading Node.pc e.ooo.path _ = _
            rw [path]
            exact here
  | tick => exact continues.same rfl rfl rfl

end Steps

variable (cfg) in
theorem init_continues {cpu : CPUState} (mapped : inDram cpu.pc = true) (world : World σ) (bpred : β) :
    (Engine.init cfg cpu world bpred).Continues cpu.pc := ⟨trivial, fun _ => ⟨trivial, truncPc_of_inDram mapped⟩⟩

/-- In every run, if fetch can follow each committed instruction, the commits form a control-flow path. -/
theorem commits_follow (vm : VMem σ) (cfg : OooConfig β) (cpu : CPUState) (world : World σ) (bpred : β) (k : Nat)
    (e : Engine σ β) (done : run vm cfg k (Engine.init cfg cpu world bpred) = some e) (mapped : inDram cpu.pc = true)
    (followed : ∀ entry ∈ commits e.log, entry.ir.Followed) : ControlPath cpu.pc (commits e.log) := by
  have reached := run_keeps (P := Continues cpu.pc) (fun _ _ ok holds step => step.continues ok holds)
    (fun _ _ ok holds step => step.continues mapped ok holds) (oooInit_ok cpu) (oooInit_tidy cpu)
    (init_continues cfg mapped world bpred) done
  exact (reached.2.2.committed followed).1

/-- `jal x0, 8` and then `nop`s: the jump is mispredicted and the wrong path flushed. -/
theorem commits_follow_jump : ∃ e, bootRun (0x0080006f :: List.replicate 63 0x00000013) 10 = some e ∧
    (commits e.log).length = 3 ∧ ControlPath mbase (commits e.log) := by
  have reached : (bootRun (0x0080006f :: List.replicate 63 0x00000013) 10).any (fun e =>
      decide ((commits e.log).length = 3) && (commits e.log).all fun entry => decide entry.ir.Followed) = true := by
    decide +kernel
  obtain ⟨e, done, holds⟩ := (Option.any_eq_true _ _).mp reached
  obtain ⟨three, followed⟩ := Bool.and_eq_true_iff.mp holds
  refine ⟨e, done, of_decide_eq_true three, commits_follow _ _ _ _ _ 10 e done rfl ?_⟩
  exact fun entry member => of_decide_eq_true (List.all_eq_true.mp followed entry member)

end Engine

/-- A program whose `ecall` has a trap vector: `auipc x5, 0`, `csrrw x0, mtvec, x5`, `ecall`, and then `nop`s. -/
def trapProgram : List Raw := [0x00000297, 0x30529073, 0x00000073] ++ List.replicate 61 0x00000013

/-- The instruction committed after the `ecall` is the next one in memory, not the one at the trap vector. -/
theorem ecall_not_followed : ∃ e, bootRun trapProgram 12 = some e ∧
    (commits e.log).map (fun entry => (entry.ir.pc, entry.ir.dnpc)) =
      [(0x80000000, 0x80000004), (0x80000004, 0x80000008), (0x80000008, 0x80000000), (0x8000000c, 0x80000010)] ∧
    ¬ ControlPath mbase (commits e.log) := by
  have reached : (bootRun trapProgram 12).any (fun e =>
      decide ((commits e.log).map (fun entry => (entry.ir.pc, entry.ir.dnpc)) =
        [(0x80000000, 0x80000004), (0x80000004, 0x80000008), (0x80000008, 0x80000000), (0x8000000c, 0x80000010)] ∧
      ¬ ControlPath mbase (commits e.log))) = true := by
    decide +kernel
  obtain ⟨e, done, holds⟩ := (Option.any_eq_true _ _).mp reached
  exact ⟨e, done, of_decide_eq_true holds⟩

end Sustemu
