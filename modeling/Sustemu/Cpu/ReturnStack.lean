import Sustemu.Cpu.Bpred
import Sustemu.Lib.Ring
import Mathlib.Data.List.Infix

/-!
# The return-address stack

`ras`, `ras_top` and `ras_count` hold the newest return addresses: a list that
calls push onto, that returns pop from and that never grows beyond `RAS_SIZE`.
Its entries are those of the newest calls that no return has matched.
-/

set_option autoImplicit false

namespace Sustemu

open Lib

namespace BranchPredictor

/-- The return addresses on the stack, newest first. -/
def returnStack (bp : BranchPredictor) : List Word := stacked rasSize bp.ras bp.rasTop bp.rasCount

structure RasBounded (bp : BranchPredictor) : Prop where
  top : bp.rasTop < rasSize
  count : bp.rasCount ≤ rasSize

variable {bp : BranchPredictor}

@[simp] theorem length_returnStack (bp : BranchPredictor) : bp.returnStack.length = bp.rasCount := length_stacked ..

theorem returnStack_pop (bp : BranchPredictor) : bp.rasPop.returnStack = bp.returnStack.tail := by
  unfold returnStack rasPop
  cases bp.rasCount with
  | zero => rfl
  | succ count => rfl

theorem returnStack_push (bounded : bp.RasBounded) (pc : Word) :
    (bp.rasPush pc).returnStack = ((pc + 4) :: bp.returnStack).take rasSize := by
  have count : (bp.rasPush pc).rasCount = min (bp.rasCount + 1) rasSize := by
    have fits := bounded.count
    unfold rasPush
    dsimp only
    split <;> omega
  unfold returnStack
  rw [count]
  exact stacked_push bounded.top bounded.count (pc + 4)

theorem RasBounded.pop (bounded : bp.RasBounded) : bp.rasPop.RasBounded where
  top := below_lt (by decide) bp.rasTop
  count := Nat.le_trans (Nat.sub_le _ _) bounded.count

theorem RasBounded.push (bounded : bp.RasBounded) (pc : Word) : (bp.rasPush pc).RasBounded where
  top := Nat.mod_lt _ (by decide)
  count := by
    have fits := bounded.count
    unfold rasPush
    dsimp only
    split <;> omega

end BranchPredictor

/-- No instruction is a call and a return. -/
theorem isCall_of_isRet {raw : Raw} (ret : isRet raw = true) : isCall raw = false := by
  unfold isRet at ret
  simp only [Bool.and_eq_true, beq_iff_eq] at ret
  obtain ⟨jalr, rd, _⟩ := ret
  unfold isCall
  rw [rd]
  split <;> simp

/-- What an instruction that is predicted does to a stack that keeps the newest `RAS_SIZE` return addresses. -/
def rasStep (stack : List Word) (pc : Word) (raw : Raw) : List Word :=
  if isRet raw then stack.tail else if isCall raw then ((pc + 4) :: stack).take rasSize else stack

/-- The calls that no return has matched, newest first. -/
def matchCall (calls : List Word) (pc : Word) (raw : Raw) : List Word :=
  if isRet raw then calls.tail else if isCall raw then pc :: calls else calls

def boundedStack (fetched : List (Word × Raw)) : List Word :=
  fetched.foldl (fun stack inst => rasStep stack inst.1 inst.2) []

def unmatchedCalls (fetched : List (Word × Raw)) : List Word :=
  fetched.foldl (fun calls inst => matchCall calls inst.1 inst.2) []

/-- `bpred_predict` for one instruction after another. -/
def predictAll (bp : BranchPredictor) (fetched : List (Word × Raw)) : BranchPredictor :=
  fetched.foldl (fun bp inst => (bpredPredict bp inst.1 inst.2).2) bp

open BranchPredictor

variable {bp : BranchPredictor}

/-- A prediction changes the return-address stack only. -/
theorem bpredPredict_after (bp : BranchPredictor) (pc : Word) (raw : Raw) : (bpredPredict bp pc raw).2 =
    if isRet raw then (if bp.rasCount > 0 then bp.rasPop else bp) else if isCall raw then bp.rasPush pc else bp := by
  unfold bpredPredict
  cases ret : isRet raw with
  | false => simp
  | true => split <;> simp_all [isCall_of_isRet ret]

theorem bpredPredict_stack (bounded : bp.RasBounded) (pc : Word) (raw : Raw) :
    (bpredPredict bp pc raw).2.RasBounded ∧ (bpredPredict bp pc raw).2.returnStack = rasStep bp.returnStack pc raw := by
  rw [bpredPredict_after]
  unfold rasStep
  cases ret : isRet raw with
  | true =>
      simp only [if_true]
      split
      · exact ⟨bounded.pop, returnStack_pop bp⟩
      · next empty =>
          have none : bp.returnStack = [] := List.length_eq_zero_iff.mp ((length_returnStack bp).trans (Nat.eq_zero_of_not_pos empty))
          rw [none]
          exact ⟨bounded, rfl⟩
  | false =>
      simp only [Bool.false_eq_true, if_false]
      split
      · exact ⟨bounded.push pc, returnStack_push bounded pc⟩
      · exact ⟨bounded, rfl⟩

theorem bpredInit_bounded : bpredInit.RasBounded := ⟨by decide, by decide⟩

theorem predictAll_stack (bounded : bp.RasBounded) (fetched : List (Word × Raw)) :
    (predictAll bp fetched).RasBounded ∧
      (predictAll bp fetched).returnStack = fetched.foldl (fun stack inst => rasStep stack inst.1 inst.2) bp.returnStack := by
  induction fetched generalizing bp with
  | nil => exact ⟨bounded, rfl⟩
  | cons inst rest ih =>
      obtain ⟨next, step⟩ := bpredPredict_stack bounded inst.1 inst.2
      obtain ⟨final, stack⟩ := ih next
      refine ⟨final, stack.trans ?_⟩
      rw [step]
      rfl

/-- The stack holds the newest unmatched calls. -/
theorem rasStep_newest {stack calls : List Word} (newest : stack <+: calls.map (· + 4)) (pc : Word) (raw : Raw) :
    rasStep stack pc raw <+: (matchCall calls pc raw).map (· + 4) := by
  unfold rasStep matchCall
  split
  · rw [List.map_tail, ← List.drop_one, ← List.drop_one]
    exact newest.drop 1
  · split
    · rw [List.map_cons]
      exact (List.take_prefix _ _).trans ((List.prefix_cons_inj _).mpr newest)
    · exact newest

theorem foldl_newest {stack calls : List Word} (newest : stack <+: calls.map (· + 4)) (fetched : List (Word × Raw)) :
    fetched.foldl (fun stack inst => rasStep stack inst.1 inst.2) stack <+:
      (fetched.foldl (fun calls inst => matchCall calls inst.1 inst.2) calls).map (· + 4) := by
  induction fetched generalizing stack calls with
  | nil => exact newest
  | cons inst rest ih => exact ih (rasStep_newest newest inst.1 inst.2)

/-- The circular array is a stack truncated to its newest `RAS_SIZE` entries, and a return that finds an entry goes to
the instruction behind the newest unmatched call. -/
theorem ras_bounded_stack (fetched : List (Word × Raw)) :
    (predictAll bpredInit fetched).returnStack = boundedStack fetched ∧
      ∀ pc raw, isRet raw = true → 0 < (predictAll bpredInit fetched).rasCount →
        ∃ call earlier, unmatchedCalls fetched = call :: earlier ∧
          (bpredPredict (predictAll bpredInit fetched) pc raw).1 = ⟨true, call + 4, true⟩ := by
  have stack : (predictAll bpredInit fetched).returnStack = boundedStack fetched :=
    (predictAll_stack bpredInit_bounded fetched).2
  refine ⟨stack, fun pc raw ret filled => ?_⟩
  have newest : boundedStack fetched <+: (unmatchedCalls fetched).map (· + 4) := foldl_newest (List.prefix_refl []) fetched
  obtain ⟨count, counted⟩ := Nat.exists_eq_succ_of_ne_zero (Nat.ne_of_gt filled)
  rw [← stack, returnStack, counted, stacked_succ] at newest
  cases calls : unmatchedCalls fetched with
  | nil =>
      rw [calls] at newest
      cases List.prefix_nil.mp newest
  | cons call earlier =>
      rw [calls, List.map_cons, List.cons_prefix_cons] at newest
      refine ⟨call, earlier, rfl, ?_⟩
      unfold bpredPredict
      rw [ret, decide_eq_true filled, ← newest.1]
      rfl

/-- Eighteen nested calls and three returns. -/
def deepCalls : List (Word × Raw) :=
  (List.range 18).map (fun i => (0x80000000 + 8 * BitVec.ofNat 64 i, 0x008000ef)) ++
    List.replicate 3 (0x80000100, 0x00008067)

theorem ras_bounded_stack_deep : ∃ call earlier, unmatchedCalls deepCalls = call :: earlier ∧
    (bpredPredict (predictAll bpredInit deepCalls) 0x80000100 0x00008067).1 = ⟨true, call + 4, true⟩ :=
  (ras_bounded_stack deepCalls).2 0x80000100 0x00008067 (by decide) (by decide +kernel)

end Sustemu
