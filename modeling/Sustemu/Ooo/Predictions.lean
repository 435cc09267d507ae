import Sustemu.Cpu.Bpred
import Sustemu.Ooo.ControlFlow

/-!
# Where fetch goes and what the branch unit compares with

Fetch stores the address it goes on with in the instruction and the branch unit
reads it back, taking zero for the next instruction. In between fetch truncates
the address to 32 bits and steps over what is not memory. The two agree for an
instruction exactly when the stored address is one of memory, whatever the
predictor answered.
-/

set_option autoImplicit false

namespace Sustemu

open Lib Engine

/-- After `k` steps over addresses outside memory, fetch from `pc` stands at `next`. -/
def Skips (pc next : Word) (k : Nat) : Prop :=
  next = truncPc (pc + BitVec.ofNat 64 (4 * k)) ∧ ∀ j < k, inDram (truncPc (pc + BitVec.ofNat 64 (4 * j))) = false

theorem truncPc_toNat (pc : Word) : (truncPc pc).toNat = pc.toNat % 2 ^ 32 := by
  unfold truncPc
  rw [BitVec.toNat_and, show (0xffffffff : Word).toNat = 2 ^ 32 - 1 from rfl, Nat.and_two_pow_sub_one_eq_mod]

theorem truncPc_add (pc offset : Word) : truncPc (truncPc pc + offset) = truncPc (pc + offset) := by
  apply BitVec.eq_of_toNat_eq
  rw [truncPc_toNat, truncPc_toNat, BitVec.toNat_add, BitVec.toNat_add, truncPc_toNat]
  omega

theorem skips_zero (pc : Word) : Skips pc (truncPc pc) 0 := ⟨by simp, fun _ absurdity => absurd absurdity (Nat.not_lt_zero _)⟩

theorem Skips.succ {pc fetchPc : Word} {k : Nat} (skips : Skips pc (truncPc fetchPc) k)
    (unmapped : inDram (truncPc fetchPc) = false) : Skips pc (truncPc (truncPc fetchPc + 4)) (k + 1) := by
  obtain ⟨here, before⟩ := skips
  constructor
  · rw [here, truncPc_add, BitVec.add_assoc, show BitVec.ofNat 64 (4 * k) + 4 = BitVec.ofNat 64 (4 * (k + 1)) by
      rw [Nat.mul_succ, BitVec.ofNat_add]
      rfl]
  · intro j older
    rcases Nat.lt_succ_iff_lt_or_eq.mp older with earlier | rfl
    · exact before j earlier
    · rw [← here]
      exact unmapped

/-- From an address of memory nothing is skipped. -/
theorem Skips.of_inDram {pc next : Word} {k : Nat} (skips : Skips pc next k) (mapped : inDram pc = true) : next = pc := by
  cases k with
  | zero =>
      rw [skips.1, show pc + BitVec.ofNat 64 (4 * 0) = pc by simp]
      exact truncPc_of_inDram mapped
  | succ k =>
      have first := skips.2 0 (Nat.succ_pos k)
      rw [show pc + BitVec.ofNat 64 (4 * 0) = pc by simp, truncPc_of_inDram mapped, mapped] at first
      cases first

/-- Fetch that starts at zero enters memory at its first word. -/
theorem Skips.enters {next : Word} {k : Nat} (skips : Skips 0 next k) (mapped : inDram next = true) :
    next.toNat < 0x80000004 := by
  obtain ⟨_, above⟩ := inDram_iff.mp mapped
  obtain ⟨here, before⟩ := skips
  have position := congrArg BitVec.toNat here
  rw [truncPc_toNat, BitVec.toNat_add, BitVec.toNat_ofNat, show (0 : Word).toNat = 0 from rfl] at position
  cases k with
  | zero => omega
  | succ k =>
      have outside := before k (Nat.lt_succ_self k)
      have previous : (truncPc (0 + BitVec.ofNat 64 (4 * k))).toNat = 4 * k % 2 ^ 64 % 2 ^ 32 := by
        rw [truncPc_toNat, BitVec.toNat_add, BitVec.toNat_ofNat, show (0 : Word).toNat = 0 from rfl, Nat.zero_add,
          Nat.mod_mod]
      have notInside : ¬ (0x80000000 ≤ 4 * k % 2 ^ 64 % 2 ^ 32 ∧ 4 * k % 2 ^ 64 % 2 ^ 32 < 0x88000000) := by
        rw [← previous]
        intro inside
        rw [inDram_iff.mpr inside] at outside
        cases outside
      omega

/-- The branch unit has not looked at the instruction, or it agreed with the prediction. -/
def Node.Agreed (x : Node) : Prop := x.ready = false ∨ x.ir.fault = false ∧ x.ir.dnpc = x.ir.predicted

/-- What follows an instruction whose prediction stands is where fetch came to from the stored address. -/
structure Node.Predicts (x : Node) (next : Word) : Prop where
  mapped : inDram x.ir.pc = true
  snpc : x.ir.snpc = x.ir.pc + 4
  fetched : x.Agreed → ∃ k, Skips x.ir.bpPredictedPc next k

theorem Node.Predicts.complete {x y : Node} {next : Word} (predicts : x.Predicts next) (waits : x.ready = false)
    (same : x.ir.SameInst y.ir) : y.Predicts next where
  mapped := by
    rw [same.pc]
    exact predicts.mapped
  snpc := by
    rw [same.snpc, same.pc]
    exact predicts.snpc
  fetched := by
    rw [same.bpPredictedPc]
    exact fun _ => predicts.fetched (.inl waits)

namespace Engine

variable {σ β : Type} {vm : VMem σ} {cfg : OooConfig β} {e e' : Engine σ β}

/-- Everything in flight is followed by what was predicted for it. -/
def Predicted (e : Engine σ β) : Prop := Linked Node.pc Node.Predicts e.ooo.path (truncPc e.ooo.fetchPc)

theorem Predicted.same (predicted : e.Predicted) (path : e'.ooo.path = e.ooo.path)
    (fetchPc : e'.ooo.fetchPc = e.ooo.fetchPc) : e'.Predicted := by
  unfold Predicted
  rw [path, fetchPc]
  exact predicted

/-- A waiting entry completes. -/
theorem Predicted.complete (predicted : e.Predicted) (inv : e.ooo.Inv) {i : RobIdx} {y : Node}
    (valid : (e.ooo.rob i).valid = true) (waits : (e.ooo.rob i).ready = false)
    (path : e'.ooo.path = e.ooo.before i ++ y :: e.ooo.behind i) (fetchPc : e'.ooo.fetchPc = e.ooo.fetchPc)
    (same : (e.ooo.rob i).ir.SameInst y.ir) : e'.Predicted := by
  unfold Predicted at predicted ⊢
  rw [OOOState.path_split inv.renamed valid] at predicted
  rw [path, fetchPc]
  exact predicted.replace same.pc fun next predicts => predicts.complete waits same

theorem BackStep.predicted (step : e.BackStep vm cfg e') (ok : e.ooo.Ok) (predicted : e.Predicted) : e'.Predicted := by
  have inv := ok.inv
  cases step with
  | note quiet => exact predicted.same rfl rfl
  | timer mshr tick lines => exact predicted.same rfl rfl
  | drain waiting written => exact predicted.same rfl rfl
  | commit live ready ordered sound room stored checked =>
      have frame := OOOState.afterCommit_frame e.ooo
      have after := (commits_of_checked stored checked).ooo
      unfold Predicted at predicted ⊢
      rw [frame.path inv.renamed live] at predicted
      rw [after, frame.fetchPc]
      exact predicted.2
  | exec bpred fault unit live run completes faulted resolved =>
      have same := (executed_sameInst inv live run).1
      obtain ⟨valid, waits⟩ := inv.live_entry live
      exact predicted.complete inv valid waits (completes.path inv live) completes.front.2.2
        ⟨same.pc, same.snpc, same.raw, same.rs1, same.rs2, same.imm, same.execFn, same.bpPredictedPc, same.width, same.blank⟩
  | redirect live run completes control wrong target =>
      rename_i s ir sys o bpred stats
      have same := (executed_sameInst inv live run).1
      obtain ⟨valid, waits⟩ := inv.live_entry live
      unfold Predicted at predicted ⊢
      rw [OOOState.path_split inv.renamed valid] at predicted
      have here := ((linked_append ..).mp predicted).2.1
      have samePc : (⟨ir, true, (e.ooo.slotEntry .int s).storeData⟩ : Node).pc = (e.ooo.slotEntry .int s).node.pc := same.pc
      rw [redirect_path ok live run completes]
      apply predicted.cut samePc
      have completed := here.complete (y := ⟨ir, true, (e.ooo.slotEntry .int s).storeData⟩) waits same
      refine ⟨completed.mapped, completed.snpc, fun agreed => ?_⟩
      -- A redirected instruction did not agree.
      rcases agreed with absurdity | ⟨_, agrees⟩
      · cases absurdity
      · exact absurd agrees wrong
  | count live => exact predicted.same rfl rfl
  | discard mshr valid flushed lines filled => exact predicted.same rfl rfl
  | address live first executor =>
      rename_i s run
      have same := (OOOState.operands_sameInst e.ooo .lsu s).trans
        (pure_sameInst (operands e.ooo (e.ooo.latch .lsu s)) executor).1
      obtain ⟨valid, waits⟩ := inv.live_entry live
      exact predicted.complete inv valid waits (OOOState.path_update inv.renamed valid rfl rfl rfl rfl rfl) rfl same
  | storeDone live computed store completes =>
      obtain ⟨valid, waits⟩ := inv.live_entry live
      exact predicted.complete inv valid waits (completes.path inv live) completes.front.2.2 (.refl _)
  | delay addressed absent => exact predicted.same rfl rfl
  | probe => exact predicted.same rfl rfl
  | miss addressed cached missed line lines => exact predicted.same rfl rfl
  | loadFault addressed outside completes =>
      obtain ⟨valid, waits⟩ := inv.live_entry addressed.live
      exact predicted.complete inv valid waits (completes.path inv addressed.live) completes.front.2.2
        ⟨rfl, rfl, rfl, rfl, rfl, rfl, rfl, rfl, id, fun _ => rfl⟩
  | fill addressed device mapped read completes =>
      obtain ⟨valid, waits⟩ := inv.live_entry addressed.live
      exact predicted.complete inv valid waits (completes.path inv addressed.live) completes.front.2.2
        ⟨rfl, rfl, rfl, rfl, rfl, rfl, rfl, rfl, id, fun _ => rfl⟩
  | issue empty chosen => exact predicted.same rfl rfl

theorem FrontStep.predicted (step : e.FrontStep vm cfg e') (ok : e.ooo.Ok) (predicted : e.Predicted) :
    e'.Predicted := by
  cases step with
  | note => exact predicted.same rfl rfl
  | rename valid inOrder alone room names renames =>
      exact predicted.same (renames.path ok.inv.renamed room valid inOrder) renames.fetchPc
  | compact consumed left => exact predicted.same (OOOState.path_compact consumed left) rfl
  | decode group consumed => exact predicted.same (OOOState.path_decode consumed) rfl
  | fetch inOrder mapped read answer =>
      rename_i s word _ _ taken next rasTop rasCnt
      obtain ⟨fetched, atPc, raw⟩ := irDecode_fetched e.cpu.gpr (word.setWidth 32) (truncPc e.ooo.fetchPc)
        (e.ooo.latchIfId s).ir
      unfold Predicted at predicted ⊢
      rw [setFetched, OOOState.path_fetch inOrder, linked_append, leading, Node.pc]
      refine ⟨?_, ⟨?_, ?_, fun _ => ⟨0, skips_zero next⟩⟩, trivial⟩
      · rw [show _ = truncPc e.ooo.fetchPc from atPc]
        exact predicted
      · rw [show _ = truncPc e.ooo.fetchPc from atPc]
        exact mapped
      · exact fetched.decoded.snpc
  | skip unmapped =>
      apply Linked.last predicted
      intro x predicts
      refine ⟨predicts.mapped, predicts.snpc, fun agreed => ?_⟩
      obtain ⟨k, skips⟩ := predicts.fetched agreed
      exact ⟨k + 1, skips.succ unmapped⟩
  | tick => exact predicted.same rfl rfl

variable (cfg) in
theorem init_predicted (cpu : CPUState) (world : World σ) (bpred : β) : (Engine.init cfg cpu world bpred).Predicted :=
  trivial

theorem run_predicted {cpu : CPUState} {world : World σ} {bpred : β} {k : Nat}
    (done : run vm cfg k (Engine.init cfg cpu world bpred) = some e) : e.Predicted :=
  (run_keeps (P := Predicted) (fun _ _ ok holds step => step.predicted ok holds)
    (fun _ _ ok holds step => step.predicted ok holds) (oooInit_ok cpu) (oooInit_tidy cpu)
    (init_predicted cfg cpu world bpred) done).2.2

end Engine

/-- What the branch unit compares with is what follows, when the stored address is one of memory. -/
theorem Node.Predicts.next {x : Node} {next : Word} (predicts : x.Predicts next) (agreed : x.Agreed)
    (stored : inDram x.ir.bpPredictedPc = true) : x.ir.predicted = next := by
  obtain ⟨k, skips⟩ := predicts.fetched agreed
  have nonzero : x.ir.bpPredictedPc ≠ 0 := by
    intro zero
    rw [zero] at stored
    cases stored
  rw [skips.of_inDram stored, IRInst.predicted, if_pos nonzero]

theorem Node.Predicts.stored {x : Node} {next : Word} (predicts : x.Predicts next) (agreed : x.Agreed)
    (mapped : inDram next = true) (equal : x.ir.predicted = next) : inDram x.ir.bpPredictedPc = true := by
  unfold IRInst.predicted at equal
  split at equal
  · rw [equal]
    exact mapped
  · next zero =>
      obtain ⟨k, skips⟩ := predicts.fetched agreed
      rw [not_not.mp zero] at skips
      have entered := skips.enters mapped
      obtain ⟨low, high⟩ := inDram_iff.mp predicts.mapped
      have behind := congrArg BitVec.toNat equal
      rw [predicts.snpc, BitVec.toNat_add, show (4 : Word).toNat = 4 from rfl] at behind
      omega

namespace Engine

variable {σ β : Type}

/-- In every state of every run, an instruction that the branch unit has not looked at, or for which it agreed with the
prediction, is followed by one at the program counter compared with exactly when the address stored by fetch is one of
memory; with nothing fetched behind it, that is where fetch stands. -/
theorem prediction_followed_iff (vm : VMem σ) (cfg : OooConfig β) (cpu : CPUState) (world : World σ) (bpred : β) (k : Nat)
    (e : Engine σ β) (done : run vm cfg k (Engine.init cfg cpu world bpred) = some e) (older younger : List Node) (x : Node)
    (path : e.ooo.path = older ++ x :: younger) (agreed : x.Agreed) :
    match younger with
    | [] => inDram x.ir.bpPredictedPc = true → x.ir.predicted = truncPc e.ooo.fetchPc
    | y :: _ => x.ir.predicted = y.ir.pc ↔ inDram x.ir.bpPredictedPc = true := by
  have linked := run_predicted done
  unfold Predicted at linked
  rw [path] at linked
  have here := ((linked_append ..).mp linked).2
  cases younger with
  | nil => exact here.1.next agreed
  | cons y rest => exact ⟨here.1.stored agreed here.2.1.mapped, here.1.next agreed⟩

end Engine

/-- One core with `--bpred2`. -/
def OooConfig.soloBpred2 : OooConfig Predictors where
  numCores := 1
  difftestEn := false
  traceEn := false
  logging := false
  bpred := .ofMode false true
  stackIr := .zero

/-- Cycles of that machine from reset. -/
def bpred2Run (words : List Raw) (k : Nat) : Option (Engine (MemState Unit) Predictors) :=
  Engine.run (hierarchy (.plain 1)) .soloBpred2 k
    (Engine.init .soloBpred2 ⟨.empty, mbase⟩ ⟨Sys.init, MemState.init (image words) ()⟩ ⟨bpredInit, bpredInit⟩)

/-- A loop of `addi x1, x1, 1`, `jal x0, 8`, a `nop` that is jumped over, and `jal x0, -12`. -/
def jumpLoop : List Raw := [0x00108093, 0x0080006f, 0x00000013, 0xff5ff06f] ++ List.replicate 60 0x00000013

/-- Both jumps are trained by now: fetch has followed the first one to the second one. -/
theorem prediction_followed_loop : ∃ e first x y younger, bpred2Run jumpLoop 11 = some e ∧
    e.ooo.path = first :: x :: y :: younger ∧ x.ir.raw = 0x0080006f ∧ x.ir.bpPredictedPc = 0x8000000c ∧
      x.ir.predicted = y.ir.pc := by
  have reached : (bpred2Run jumpLoop 11).any (fun e => decide (2 < e.ooo.path.length) && e.ooo.path[1]?.any fun x =>
      !x.ready && decide (x.ir.raw = 0x0080006f ∧ x.ir.bpPredictedPc = 0x8000000c)) = true := by
    decide +kernel
  obtain ⟨e, done, holds⟩ := (Option.any_eq_true _ _).mp reached
  generalize path : e.ooo.path = nodes at holds
  obtain _ | ⟨first, _ | ⟨x, _ | ⟨y, younger⟩⟩⟩ := nodes
  · exact absurd holds (by simp)
  · exact absurd holds (by simp)
  · exact absurd holds (by simp)
  · obtain ⟨-, second⟩ := Bool.and_eq_true_iff.mp holds
    obtain ⟨waits, jump⟩ := Bool.and_eq_true_iff.mp second
    obtain ⟨raw, target⟩ := of_decide_eq_true jump
    have stored : inDram x.ir.bpPredictedPc = true := target ▸ rfl
    exact ⟨e, first, x, y, younger, done, path, raw, target, (Engine.prediction_followed_iff _ _ _ _ _ 11 e done
      [first] (y :: younger) x path (.inl (Bool.not_eq_true' _ |>.mp waits))).mpr stored⟩

/-- `mul x5, x6, x7`, `beq x5, x0, 28`, `jalr x0, x1` and `nop`s, then `auipc x1, 0`,
`addi x1, x1, -20` and `jal x0, -32`. The `jalr` first runs on the wrong path, with zero in `x1`, while the branch waits for
the product, and then with its own successor in `x1`. -/
def zeroTargetProgram : List Raw :=
  [0x027302b3, 0x00028e63, 0x00008067] ++ List.replicate 5 0x00000013 ++ [0x00000097, 0xfec08093, 0xfe1ff06f] ++
    List.replicate 53 0x00000013

private theorem zeroTarget_reached : (bpred2Run zeroTargetProgram 20).any (fun e =>
    (commits e.log).getLast?.any fun entry => entry.ir.pc == 0x80000008 && (entry.ir.itype == .jalr &&
      (entry.ir.dnpc == 0x8000000c && (entry.ir.predicted == 0x8000000c && (e.ooo.path.length == 0 &&
        decide ((truncPc e.ooo.fetchPc).toNat < 0x1000)))))) = true := by
  decide +kernel

/-- The `jalr` computes what it is compared with, and fetch is near address zero with nothing in flight. -/
theorem prediction_zero_strands : ∃ e entry, bpred2Run zeroTargetProgram 20 = some e ∧
    (commits e.log).getLast? = some entry ∧ entry.ir.pc = 0x80000008 ∧ entry.ir.itype = .jalr ∧
      entry.ir.dnpc = 0x8000000c ∧ entry.ir.predicted = 0x8000000c ∧ e.ooo.path.length = 0 ∧
        (truncPc e.ooo.fetchPc).toNat < 0x1000 := by
  obtain ⟨e, done, rest⟩ := (Option.any_eq_true _ _).mp zeroTarget_reached
  obtain ⟨entry, last, holds⟩ := (Option.any_eq_true _ _).mp rest
  simp only [Bool.and_eq_true, beq_iff_eq, decide_eq_true_eq] at holds
  exact ⟨e, entry, done, last, holds⟩

end Sustemu
