import Sustemu.Cpu.Counters
import Sustemu.Lib.Loop
import Sustemu.Ooo.Buffer
import Sustemu.Ooo.CommitLog

/-!
# The instruction budget

`exec(n)` runs each mode in a loop of its own. The functional loop counts
instructions down; the two pipelines run whole cycles until their statistics
show `n` instructions. A cycle of the in-order pipeline retires at most one, so
its loop stops on time. A cycle of the out-of-order engine commits up to two,
and the loop overshoots if the budget ends between them.
-/

set_option autoImplicit false

namespace Sustemu

open Lib Relation

variable {σ β : Type}

/-- A program that has ended is not run again; any other state becomes `NEMU_RUNNING`. -/
def World.resume (w : World σ) : Option (World σ) :=
  match w.sys.state with
  | .end | .abort => none
  | _ => some { w with sys := { w.sys with state := .running } }

def World.running (w : World σ) : Bool := decide (w.sys.state = .running)

/-! ## Functional mode -/

namespace Machine

variable (vm : VMem σ) (stack : Nat → IRInst)

/-- One `exec_once`, after the instructions in the list. -/
def round (p : List IRInst × Machine σ) : Option (List IRInst × Machine σ) :=
  (execOnce vm (stack p.1.length) p.2).map fun (ir, m) => (p.1 ++ [ir], m)

/-- `for (; n > 0; n--)`, left early if the state changes. -/
def execLoop : Nat → List IRInst × Machine σ → Option (List IRInst × Machine σ)
  | 0, p => some p
  | n + 1, p => (round vm stack p).bind fun p => if p.2.world.running then execLoop n p else some p

/-- `exec` in functional mode: the instructions executed and the machine after them. -/
def exec (n : Nat) (m : Machine σ) : Option (List IRInst × Machine σ) :=
  match m.world.resume with
  | none => some ([], m)
  | some world => execLoop vm stack n ([], ⟨m.cpu, world⟩)

/-- The program has not ended and does not end, and nothing stops it, before `n` instructions. -/
def Uninterrupted (n : Nat) (m : Machine σ) : Prop :=
  ∃ world, m.world.resume = some world ∧
    Undisturbed (round vm stack) (fun p => p.1.length) (fun p => p.2.world.running) n ([], ⟨m.cpu, world⟩)

variable {vm stack}

theorem execLoop_exact {n turns : Nat} {p : List IRInst × Machine σ}
    (calm : Undisturbed (round vm stack) (fun p => p.1.length) (fun p => p.2.world.running) n p)
    (left : p.1.length + turns = n) : ∃ p', execLoop vm stack turns p = some p' ∧ p'.1.length = n := by
  induction turns generalizing p with
  | zero => exact ⟨p, rfl, left⟩
  | succ turns ih =>
      have short : p.1.length < n := by
        omega
      obtain ⟨running, ok⟩ := calm p .refl short
      obtain ⟨p', stepped⟩ := Option.isSome_iff_exists.mp ok
      have one : p'.1.length = p.1.length + 1 := by
        obtain ⟨⟨ir, m⟩, _, same⟩ := Option.map_eq_some_iff.mp stepped
        rw [← same]
        exact List.length_append
      have going : within (fun p : List IRInst × Machine σ => p.1.length) (fun p => p.2.world.running) n p = true := by
        exact Bool.and_eq_true_iff.mpr ⟨decide_eq_true short, running⟩
      have later : Undisturbed (round vm stack) (fun p => p.1.length) (fun p => p.2.world.running) n p' :=
        fun a rounds => calm a (.head ⟨going, stepped⟩ rounds)
      obtain ⟨last, looped, full⟩ := ih later (by omega)
      refine ⟨last, ?_, full⟩
      rw [execLoop, stepped, Option.bind_some]
      split
      · exact looped
      · next stopped =>
          -- the state may change with the last instruction only
          cases turns with
          | zero => exact looped
          | succ turns =>
              have more : p'.1.length < n := by
                omega
              exact absurd (later p' .refl more).1 stopped

end Machine

/-! ## In-order mode -/

namespace Inorder

variable (vm : VMem σ) (cfg : PipeConfig β)

/-- `pipeline_init` on what the previous call has left. -/
def restart (e : Inorder σ β) (world : World σ) : Inorder σ β :=
  init cfg e.pipe.slots e.cpu world e.bpred e.diffCpu e.diffInit

/-- `exec` in in-order mode, given up after `fuel` tests of its loop. -/
def exec (n fuel : Nat) (e : Inorder σ β) : Option (Inorder σ β) :=
  match e.world.resume with
  | none => some e
  | some world => whileLoop (pipelineCycle vm cfg) (within (fun e => e.stats.insts) (fun e => e.world.running) n) fuel
      (e.restart cfg world)

/-- The program has not ended and does not end, and nothing stops it, before `n` instructions. -/
def Uninterrupted (n : Nat) (e : Inorder σ β) : Prop :=
  ∃ world, e.world.resume = some world ∧
    Undisturbed (pipelineCycle vm cfg) (fun e => e.stats.insts) (fun e => e.world.running) n (e.restart cfg world)

/-- How far the oldest instruction in flight is from the end of the pipeline. -/
def distance (e : Inorder σ β) : Nat :=
  if (e.pipe.reg .wb).valid then 0
  else if (e.pipe.reg .mem).valid then 1
  else if (e.pipe.reg .ex).valid then 2
  else if (e.pipe.reg .id).valid then 3
  else 4

/-- Stages to go, then cycles to wait. -/
def Nearer (e e' : Inorder σ β) : Prop :=
  Prod.Lex (· < ·) (· < ·) (e.distance, e.pipe.memStallRem) (e'.distance, e'.pipe.memStallRem)

theorem nearer_wf : WellFounded (Nearer (σ := σ) (β := β)) :=
  InvImage.wf (fun e : Inorder σ β => (e.distance, e.pipe.memStallRem))
    (WellFounded.prod_lex Nat.lt_wfRel.wf Nat.lt_wfRel.wf)

variable {vm cfg} {e e' : Inorder σ β}

variable (cfg) in
/-- Behind an empty execute stage nothing stalls and nothing is thrown away. -/
theorem decodeStage_behind_empty (gpr : RegFile) (mem : PipeReg) {ex : PipeReg} (id : PipeReg) (pc : Word) (empty : ex.valid = false) :
    (decodeStage gpr mem ex (cfg.steer ex id pc).1).2 = false ∧
      (decodeStage gpr mem ex (cfg.steer ex id pc).1).1.valid = id.valid := by
  have straight : ¬cfg.redirects ex := by
    rintro ⟨live, _⟩
    rw [empty] at live
    cases live
  have noUse : ∀ ir, loadUse ex ir = false := by
    intro ir
    unfold loadUse
    rw [empty]
    rfl
  unfold PipeConfig.steer decodeStage
  rw [if_neg straight]
  cases valid : id.valid with
  | false => exact ⟨rfl, valid⟩
  | true =>
      simp only [noUse]
      exact ⟨rfl, rfl⟩

/-- A cycle that retires nothing moves the oldest instruction on. -/
theorem Cycle.nearer {e₀ : Inorder σ β} {mem ex : PipeReg} {w₁ w₂ : World σ} (cycle : Cycle vm cfg e e' e₀ mem ex w₁ w₂)
    (empty : (e.pipe.reg .wb).valid = false) : e'.distance < e.distance := by
  have memValid := MemStage.valid cycle.memory
  have exValid := ExStage.valid cycle.execute
  unfold distance
  rw [cycle.wbLatch, cycle.memLatch, memValid, exValid, empty]
  cases mem₀ : (e.pipe.reg .mem).valid with
  | true => exact Nat.zero_lt_one
  | false =>
      cases ex₀ : (e.pipe.reg .ex).valid with
      | true => exact Nat.lt_succ_self 1
      | false =>
          have idle : ex.valid = false := exValid.trans ex₀
          obtain ⟨free, keeps⟩ := decodeStage_behind_empty cfg e.written.gpr mem (e.pipe.reg .id) e.pipe.fetchPc idle
          have front := cycle.front
          rw [free] at front
          cases front with
          | fetch _ _ exLatch idLatch =>
              rw [exLatch, keeps, idLatch]
              cases (e.pipe.reg .id).valid <;> exact Nat.lt_succ_self _

variable (reports : vm.Reports)

include reports in
/-- A cycle retires one instruction or brings the next one nearer. -/
theorem pipelineCycle_counts (done : pipelineCycle vm cfg e = some e') :
    (e'.stats.insts = e.stats.insts + 1 ∨ e'.stats.insts = e.stats.insts ∧ e'.Nearer e) ∧
      e'.stats.insts + (retiredOf e.log).length = e.stats.insts + (retiredOf e'.log).length := by
  unfold pipelineCycle at done
  split at done
  · next frozen =>
      cases done
      refine ⟨.inr ⟨rfl, ?_⟩, rfl⟩
      exact .right _ (Nat.sub_lt frozen Nat.one_pos)
  · obtain ⟨last, ran, rfl⟩ := Option.map_eq_some_iff.mp done
    have counted := (stages_steady reports ran).insts
    refine ⟨?_, counted⟩
    obtain ⟨e₀, mem, ex, w₁, w₂, cycle⟩ := stages_cycle ran
    have new : (retiredOf last.log).length = (retiredOf e.log).length + (e.pipe.reg .wb).content.length := by
      rw [cycle.log, retiredOf_append, List.length_append, retiredOf_cycle]
    change last.stats.insts = _ ∨ last.stats.insts = _ ∧ _
    cases live : (e.pipe.reg .wb).valid with
    | true =>
        rw [PipeReg.content, live] at new
        change _ = _ + 1 at new
        exact .inl (by omega)
    | false =>
        rw [PipeReg.content, live] at new
        change _ = _ + 0 at new
        exact .inr ⟨by omega, .left _ _ (cycle.nearer live)⟩

include reports in
/-- The statistics count the instructions retired since the start. -/
theorem rounds_counted {goes : Inorder σ β → Bool} {start : Inorder σ β} (fresh : start.stats.insts = 0)
    (clean : start.log = []) (rounds : ReflTransGen (Round (pipelineCycle vm cfg) goes) start e) :
    (retiredOf e.log).length = e.stats.insts := by
  induction rounds with
  | refl =>
      rw [fresh, clean]
      rfl
  | tail _ round ih =>
      have counted := (pipelineCycle_counts reports round.2).2
      omega

include reports in
theorem exec_exact {n : Nat} (positive : 1 ≤ n) (calm : e.Uninterrupted vm cfg n) :
    ∃ fuel e', e.exec vm cfg n fuel = some e' ∧ (retiredOf e'.log).length = n := by
  obtain ⟨world, resumed, calm⟩ := calm
  obtain ⟨fuel, e', looped, full⟩ := budget_exact nearer_wf calm positive
    fun a b stepped => (pipelineCycle_counts reports stepped).1
  refine ⟨fuel, e', ?_, ?_⟩
  · unfold exec
    rw [resumed]
    exact looped
  · rw [rounds_counted reports rfl rfl (whileLoop_iff.mp ⟨fuel, looped⟩).1]
    exact full

end Inorder

/-! ## Out-of-order mode -/

namespace OOOState

/-- The entry in slot `i` commits while the store buffer holds that many stores: it has its result, a fence does
not wait for the buffer and a store finds room in it. -/
def canCommit (o : OOOState) (i : RobIdx) (stores : Nat) : Bool :=
  let entry := o.rob i
  entry.valid && entry.ready && !(decide (entry.ir.itype = .fence) && decide (stores > 0)) &&
    !(decide (entry.ir.itype = .store) && inDram entry.ir.memAddr && decide (stores ≥ storeBufSize))

/-- How many of the two oldest entries the commit stage retires. -/
def commitGroup (o : OOOState) : Nat :=
  let head := (o.rob o.robHead).ir
  let stores := if head.itype = .store ∧ inDram head.memAddr = true then o.sbufCount + 1 else o.sbufCount
  if o.robCount ≠ 0 ∧ o.canCommit o.robHead o.sbufCount then
    if o.robCount ≠ 1 ∧ o.canCommit (o.robHead + 1) stores then 2 else 1
  else 0

end OOOState

namespace Engine

variable (vm : VMem σ) (cfg : OooConfig β)

/-- `ooo_init` on what the previous call has left. -/
def restart (e : Engine σ β) (world : World σ) : Engine σ β := init cfg e.cpu world e.bpred

/-- `exec` in out-of-order mode, given up after `fuel` tests of its loop. -/
def exec (n fuel : Nat) (e : Engine σ β) : Option (Engine σ β) :=
  match e.world.resume with
  | none => some e
  | some world => whileLoop (cycle vm cfg) (within (fun e => e.stats.insts) (fun e => e.world.running) n) fuel
      (e.restart cfg world)

/-- The program has not ended and does not end, and nothing stops it, before `n` instructions. -/
def Uninterrupted (n : Nat) (e : Engine σ β) : Prop :=
  ∃ world, e.world.resume = some world ∧
    Undisturbed (cycle vm cfg) (fun e => e.stats.insts) (fun e => e.world.running) n (e.restart cfg world)

/-- The loop comes to a cycle whose commit stage retires as many instructions as the budget has left. -/
def GroupFits (n : Nat) (e : Engine σ β) : Prop :=
  ∃ world a drained, e.world.resume = some world ∧
    ReflTransGen (Round (cycle vm cfg) (within (fun e => e.stats.insts) (fun e => e.world.running) n))
      (e.restart cfg world) a ∧
    a.drainStoreBuf vm cfg = some drained ∧ a.stats.insts < n ∧ a.stats.insts + drained.ooo.commitGroup = n

variable {vm cfg} {e e' : Engine σ β}

theorem commitOne_goes {goesOn : Bool} (done : e.commitOne vm cfg = some (e', goesOn)) :
    goesOn = (decide (e.ooo.robCount ≠ 0) && e.ooo.canCommit e.ooo.robHead e.ooo.sbufCount) := by
  unfold commitOne at done
  unfold OOOState.canCommit
  simp only at done
  split at done
  · next idle =>
      cases done
      rcases idle with empty | invalid | unready
      · simp [empty]
      · rw [Bool.not_eq_true'] at invalid
        simp [invalid]
      · rw [Bool.not_eq_true'] at unready
        simp [unready]
  · next live =>
      simp only [not_or, Bool.not_eq_true', Bool.not_eq_false] at live
      obtain ⟨filled, valid, ready⟩ := live
      split at done
      · next waits =>
          cases done
          simp [waits.1, waits.2]
      · next goes =>
          split at done
          · cases done
          · split at done
            · next full =>
                cases done
                simp [full.1, full.2.1, full.2.2]
            · next room =>
                have on : goesOn = true := by
                  obtain ⟨e₁, _, done⟩ := Option.bind_eq_some_iff.mp done
                  split at done
                  · obtain ⟨e₂, _, done⟩ := Option.bind_eq_some_iff.mp done
                    cases done
                    rfl
                  · cases done
                    rfl
                rw [on]
                simp only [not_and] at goes room
                by_cases fence : (e.ooo.rob e.ooo.robHead).ir.itype = .fence
                · simp [filled, valid, ready, fence, goes fence]
                · by_cases store : (e.ooo.rob e.ooo.robHead).ir.itype = .store
                  · have fits := room store
                    cases dram : inDram (e.ooo.rob e.ooo.robHead).ir.memAddr with
                    | false => simp [filled, valid, ready, store, dram]
                    | true => simp [filled, valid, ready, store, fits dram]
                  · simp [filled, valid, ready, fence, store]

/-- A turn that stops retires nothing, and one that goes on retires the oldest entry. -/
theorem commitOne_counts {goesOn : Bool} (done : e.commitOne vm cfg = some (e', goesOn)) :
    (goesOn = true → e'.ooo = e.ooo.afterCommit) ∧
      (commits e'.log).length = (commits e.log).length + if goesOn then 1 else 0 := by
  rcases commitOne_records done with ⟨rfl, _, rfl⟩ | ⟨rfl, _, rfl⟩ | ⟨rfl, _, entries, _⟩
  · exact ⟨nofun, rfl⟩
  · exact ⟨nofun, congrArg List.length (commitTrace_frame e _)⟩
  · obtain ⟨_, _, _, ⟨absurdity, _⟩ | ⟨_, step⟩⟩ := commitOne_cases done
    · cases absurdity
    · refine ⟨fun _ => step.ooo, ?_⟩
      rw [entries, List.length_append]
      rfl

/-- The second turn finds the entry behind the oldest one. -/
theorem canCommit_afterCommit (o : OOOState) :
    o.afterCommit.canCommit o.afterCommit.robHead o.afterCommit.sbufCount = o.canCommit (o.robHead + 1)
      (if (o.rob o.robHead).ir.itype = .store ∧ inDram (o.rob o.robHead).ir.memAddr = true then o.sbufCount + 1
        else o.sbufCount) := by
  have frame := o.afterCommit_frame
  have next : o.robHead + 1 ≠ o.robHead := add_ne_left.mpr (by decide)
  have entry : o.afterCommit.rob o.afterCommit.robHead = o.rob (o.robHead + 1) := by
    rw [frame.rob, frame.head, setAt_of_ne next]
  have stores : o.afterCommit.sbufCount =
      if (o.rob o.robHead).ir.itype = .store ∧ inDram (o.rob o.robHead).ir.memAddr = true then o.sbufCount + 1
      else o.sbufCount := by
    rw [o.afterCommit_stores.2.2.2]
    split <;> rfl
  unfold OOOState.canCommit
  rw [entry, stores]

theorem commitLoop_counts (done : commitLoop vm cfg commitWidth e = some e') :
    (commits e'.log).length = (commits e.log).length + e.ooo.commitGroup := by
  obtain ⟨⟨e₁, goes₁⟩, first, done⟩ := Option.bind_eq_some_iff.mp done
  have goes := commitOne_goes first
  obtain ⟨ooo₁, count₁⟩ := commitOne_counts first
  unfold OOOState.commitGroup
  cases goes₁ with
  | false =>
      cases done
      have none : ¬(e.ooo.robCount ≠ 0 ∧ e.ooo.canCommit e.ooo.robHead e.ooo.sbufCount = true) := by
        simpa using goes.symm
      rw [count₁, if_neg none]
      rfl
  | true =>
      have head : e.ooo.robCount ≠ 0 ∧ e.ooo.canCommit e.ooo.robHead e.ooo.sbufCount = true := by
        simpa using goes.symm
      rw [if_pos head]
      obtain ⟨⟨e₂, goes₂⟩, second, done⟩ := Option.bind_eq_some_iff.mp done
      have goes := commitOne_goes second
      have count₂ := (commitOne_counts second).2
      rw [ooo₁ rfl, canCommit_afterCommit, e.ooo.afterCommit_frame.count] at goes
      have last : e' = e₂ := by
        cases goes₂ <;> exact (Option.some.inj done).symm
      rw [last, count₂, count₁, Nat.add_assoc]
      congr 1
      cases goes₂ with
      | false =>
          rw [if_neg (c := e.ooo.robCount ≠ 1 ∧ _)]
          · rfl
          · rintro ⟨more, can⟩
            rw [can, Bool.and_true] at goes
            exact absurd (of_decide_eq_false goes.symm) (by omega)
      | true =>
          obtain ⟨more, can⟩ := Bool.and_eq_true_iff.mp goes.symm
          have several := of_decide_eq_true more
          have behind : e.ooo.robCount ≠ 1 := by
            omega
          rw [if_pos (c := e.ooo.robCount ≠ 1 ∧ _) ⟨behind, can⟩]
          rfl

variable (reports : vm.Reports)

include reports in
/-- A cycle retires the group its commit stage finds once the store buffer has drained. -/
theorem cycle_group (done : e.cycle vm cfg = some e') : ∃ drained, e.drainStoreBuf vm cfg = some drained ∧
    (commits e'.log).length = (commits e.log).length + drained.ooo.commitGroup ∧
    e'.stats.insts = e.stats.insts + drained.ooo.commitGroup := by
  obtain ⟨drained, committed, last, drain, commit, first, rest, rfl⟩ := cycle_counts reports done
  have more := commitLoop_counts commit
  have before := congrArg List.length (drainStoreBuf_silent drain).1
  have insts := (first.trans rest.steady).insts
  have quiet : commits last.log = commits committed.log := rest.commits
  have total : (commits last.log).length = (commits e.log).length + drained.ooo.commitGroup := by
    rw [quiet, more, ← before]
  refine ⟨drained, drain, total, ?_⟩
  change last.stats.insts = _
  omega

include reports in
theorem rounds_counted {goes : Engine σ β → Bool} {start : Engine σ β} (fresh : start.stats.insts = 0)
    (clean : start.log = []) (rounds : ReflTransGen (Round (cycle vm cfg) goes) start e) :
    (commits e.log).length = e.stats.insts := by
  induction rounds with
  | refl =>
      rw [fresh, clean]
      rfl
  | tail _ round ih =>
      obtain ⟨_, _, retired, counted⟩ := cycle_group reports round.2
      omega

/-- What the commit stage of the next cycle retires. -/
def nextGroup (vm : VMem σ) (cfg : OooConfig β) (e : Engine σ β) : Nat :=
  (e.drainStoreBuf vm cfg).elim 0 fun drained => drained.ooo.commitGroup

include reports in
theorem exec_exact_iff {n : Nat} (positive : 1 ≤ n) (calm : e.Uninterrupted vm cfg n) :
    (∃ fuel e', e.exec vm cfg n fuel = some e' ∧ (commits e'.log).length = n) ↔ e.GroupFits vm cfg n := by
  obtain ⟨world, resumed, calm⟩ := calm
  have budget := budget_exact_iff (nextGroup vm cfg) calm positive fun a b _ stepped => by
    obtain ⟨drained, drain, _, counted⟩ := cycle_group reports stepped
    rw [nextGroup, drain]
    exact counted
  unfold exec
  rw [resumed]
  constructor
  · rintro ⟨fuel, e', looped, full⟩
    rw [rounds_counted reports rfl rfl (whileLoop_iff.mp ⟨fuel, looped⟩).1] at full
    obtain ⟨a, rounds, less, meets⟩ := budget.mp ⟨fuel, e', looped, full⟩
    obtain ⟨_, ok⟩ := calm a rounds less
    obtain ⟨b, stepped⟩ := Option.isSome_iff_exists.mp ok
    obtain ⟨drained, drain, _⟩ := cycle_group reports stepped
    rw [nextGroup, drain] at meets
    exact ⟨world, a, drained, resumed, rounds, drain, less, meets⟩
  · rintro ⟨world', a, drained, again, rounds, drain, less, meets⟩
    cases resumed.symm.trans again
    obtain ⟨fuel, e', looped, full⟩ := budget.mpr ⟨a, rounds, less, by rw [nextGroup, drain]; exact meets⟩
    refine ⟨fuel, e', looped, ?_⟩
    rw [rounds_counted reports rfl rfl (whileLoop_iff.mp ⟨fuel, looped⟩).1]
    exact full

end Engine

/-- `exec(n)` retires `n` instructions in the functional and the in-order mode; in the out-of-order mode it does so
exactly if the budget ends where the group of some cycle ends. -/
theorem exec_retires_iff {β δ : Type} (mem : MemConfig δ) {n : Nat} (positive : 1 ≤ n) :
    (∀ (stack : Nat → IRInst) (m : Machine (MemState δ)), m.Uninterrupted (hierarchy mem) stack n →
      ∃ executed m', m.exec (hierarchy mem) stack n = some (executed, m') ∧ executed.length = n) ∧
    (∀ (cfg : PipeConfig β) (e : Inorder (MemState δ) β), e.Uninterrupted (hierarchy mem) cfg n →
      ∃ fuel e', e.exec (hierarchy mem) cfg n fuel = some e' ∧ (retiredOf e'.log).length = n) ∧
    (∀ (cfg : OooConfig β) (e : Engine (MemState δ) β), e.Uninterrupted (hierarchy mem) cfg n →
      ((∃ fuel e', e.exec (hierarchy mem) cfg n fuel = some e' ∧ (commits e'.log).length = n) ↔
        e.GroupFits (hierarchy mem) cfg n)) := by
  refine ⟨fun stack m calm => ?_, fun cfg e calm => Inorder.exec_exact (hierarchy_reports mem) positive calm,
    fun cfg e calm => Engine.exec_exact_iff (hierarchy_reports mem) positive calm⟩
  obtain ⟨world, resumed, calm⟩ := calm
  obtain ⟨⟨executed, m'⟩, looped, full⟩ := Machine.execLoop_exact calm (Nat.zero_add n)
  refine ⟨executed, m', ?_, full⟩
  unfold Machine.exec
  rw [resumed]
  exact looped

/-! ## A program of `nop`s -/

/-- Each mode at the start of sixteen `nop`s. -/
def nopWorld : World (MemState Unit) := ⟨Sys.init, MemState.init (image (List.replicate 16 0x00000013)) ()⟩

def Machine.nops : Machine (MemState Unit) := ⟨⟨.empty, mbase⟩, nopWorld⟩

def Inorder.nops : Inorder (MemState Unit) Unit :=
  init .plain (fun _ => .zero) ⟨.empty, mbase⟩ nopWorld () ⟨.empty, mbase⟩ false

def Engine.nops : Engine (MemState Unit) Unit := init .solo ⟨.empty, mbase⟩ nopWorld ()

theorem Machine.nops_uninterrupted : Machine.nops.Uninterrupted (hierarchy (.plain 1)) (fun _ => .zero) 2 := by
  have test : undisturbedFor (Machine.round (hierarchy (.plain 1)) fun _ => .zero) (fun p => p.1.length)
      (fun p => p.2.world.running) 2 10 ([], Machine.nops) = true := by
    decide +kernel
  exact ⟨nopWorld, rfl, undisturbedFor_sound test⟩

theorem Inorder.nops_uninterrupted : Inorder.nops.Uninterrupted (hierarchy (.plain 1)) .plain 2 := by
  have test : undisturbedFor (Inorder.pipelineCycle (hierarchy (.plain 1)) .plain) (fun e => e.stats.insts)
      (fun e => e.world.running) 2 20 Inorder.nops = true := by
    decide +kernel
  exact ⟨nopWorld, rfl, undisturbedFor_sound test⟩

theorem Engine.nops_uninterrupted {n : Nat} (few : n = 1 ∨ n = 2) :
    Engine.nops.Uninterrupted (hierarchy (.plain 1)) .solo n := by
  have test : [1, 2].all (fun n => undisturbedFor (Engine.cycle (hierarchy (.plain 1)) .solo)
      (fun e => e.stats.insts) (fun e => e.world.running) n 20 Engine.nops) = true := by
    decide +kernel
  exact ⟨nopWorld, rfl, undisturbedFor_sound (List.all_eq_true.mp test n (by simpa using few))⟩

/-- The first two `nop`s commit in one cycle. -/
theorem Engine.nops_exec {n : Nat} (few : n = 1 ∨ n = 2) : ∃ e,
    Engine.nops.exec (hierarchy (.plain 1)) .solo n 20 = some e ∧ (commits e.log).length = 2 := by
  have test : [1, 2].all (fun n => (Engine.nops.exec (hierarchy (.plain 1)) .solo n 20).any fun e =>
      decide ((commits e.log).length = 2)) = true := by
    decide +kernel
  obtain ⟨e, done, two⟩ := (Option.any_eq_true _ _).mp (List.all_eq_true.mp test n (by simpa using few))
  exact ⟨e, done, of_decide_eq_true two⟩

theorem exec_retires_iff_nops :
    (∃ executed m', Machine.nops.exec (hierarchy (.plain 1)) (fun _ => .zero) 2 = some (executed, m') ∧
      executed.length = 2) ∧
    (∃ fuel e', Inorder.nops.exec (hierarchy (.plain 1)) .plain 2 fuel = some e' ∧ (retiredOf e'.log).length = 2) ∧
    Engine.nops.GroupFits (hierarchy (.plain 1)) .solo 2 := by
  obtain ⟨functional, inorder, ooo⟩ := exec_retires_iff (β := Unit) (.plain 1) (n := 2) (by decide)
  obtain ⟨e, done, two⟩ := Engine.nops_exec (.inr rfl)
  exact ⟨functional _ _ Machine.nops_uninterrupted, inorder _ _ Inorder.nops_uninterrupted,
    (ooo _ _ (Engine.nops_uninterrupted (.inr rfl))).mp ⟨20, e, done, two⟩⟩

/-- A budget of one instruction ends between them. -/
theorem exec_one_retires_two : Engine.nops.Uninterrupted (hierarchy (.plain 1)) .solo 1 ∧
    (∃ e, Engine.nops.exec (hierarchy (.plain 1)) .solo 1 20 = some e ∧ (commits e.log).length = 2) ∧
    ¬∃ fuel e, Engine.nops.exec (hierarchy (.plain 1)) .solo 1 fuel = some e ∧ (commits e.log).length = 1 := by
  obtain ⟨e, done, two⟩ := Engine.nops_exec (.inl rfl)
  refine ⟨Engine.nops_uninterrupted (.inl rfl), ⟨e, done, two⟩, ?_⟩
  rintro ⟨fuel, e', done', one⟩
  have same : e = e' := whileLoop_unique done done'
  rw [same, one] at two
  cases two

end Sustemu
