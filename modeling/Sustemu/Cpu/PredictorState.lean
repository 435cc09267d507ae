import Sustemu.Cpu.ReturnStack
import Mathlib.Logic.Relation

/-!
# The range of the predictor state

Counters saturate, histories are masked and the return-address stack is only set
back to where it has been. So every index that the predictors use without
masking it lies within its table.
-/

set_option autoImplicit false

namespace Sustemu

open Lib BranchPredictor Relation

/-! ## What happens to a predictor -/

/-- A predictor and the snapshots of `ras_top` and `ras_count` that fetched instructions carry. -/
structure TrackedPredictor where
  bp : BranchPredictor
  snaps : List (Nat × Nat)

/-- A call of the predictor, or a recovery from a misprediction. The snapshot is taken before the prediction. -/
inductive PredictorStep : TrackedPredictor → TrackedPredictor → Prop
  | predict (t : TrackedPredictor) (pc : Word) (raw : Raw) :
      PredictorStep t ⟨(bpredPredict t.bp pc raw).2, (t.bp.rasTop, t.bp.rasCount) :: t.snaps⟩
  | update (t : TrackedPredictor) (ir : IRInst) : PredictorStep t ⟨bpredUpdate t.bp ir, t.snaps⟩
  | update2 (t : TrackedPredictor) (ir : IRInst) : PredictorStep t ⟨bpred2Update t.bp ir, t.snaps⟩
  | restore (t : TrackedPredictor) {top count : Nat} (snapped : (top, count) ∈ t.snaps) :
      PredictorStep t ⟨{ t.bp with rasTop := top, rasCount := count }, t.snaps⟩

/-! ## Ranges -/

structure BranchPredictor.InRange (bp : BranchPredictor) : Prop where
  lpht : ∀ i, bp.lpht i ≤ 3
  gpht : ∀ i, bp.gpht i ≤ 3
  choice : ∀ i, bp.choice i ≤ 3
  lht : ∀ i, bp.lht i < lhtSize
  ghr : bp.ghr < gphtSize
  ras : bp.RasBounded
  counted : bp.mispredictions ≤ bp.predictions

theorem saturate_le (actual : Bool) {counter : Nat} (small : counter ≤ 3) : saturate actual counter ≤ 3 := by
  unfold saturate
  split
  · split <;> omega
  · omega

theorem shiftHistory_lt {size : Nat} (positive : 0 < size) (history : Nat) (actual : Bool) :
    shiftHistory size history actual < size := Nat.mod_lt _ positive

theorem update_le {f : Nat → Nat} {bound : Nat} (all : ∀ i, f i ≤ bound) (i : Nat) {x : Nat} (small : x ≤ bound) (j : Nat) :
    setAt f i x j ≤ bound := by
  by_cases same : j = i
  · rw [same, setAt_self]
    exact small
  · rw [setAt_of_ne same]
    exact all j

namespace BranchPredictor

variable {bp : BranchPredictor}

theorem InRange.predict (range : bp.InRange) (pc : Word) (raw : Raw) : (bpredPredict bp pc raw).2.InRange := by
  have bounded := (bpredPredict_stack range.ras pc raw).1
  have same : (bpredPredict bp pc raw).2 =
      { bp with
        ras := (bpredPredict bp pc raw).2.ras
        rasTop := (bpredPredict bp pc raw).2.rasTop
        rasCount := (bpredPredict bp pc raw).2.rasCount } := by
    rw [bpredPredict_after]
    split
    · split <;> rfl
    · split <;> rfl
  rw [same] at bounded ⊢
  exact ⟨range.lpht, range.gpht, range.choice, range.lht, range.ghr, bounded, range.counted⟩

theorem InRange.learn (range : bp.InRange) (pc target : Word) : (bp.learn pc target).InRange :=
  ⟨range.lpht, range.gpht, range.choice, range.lht, range.ghr, ⟨range.ras.top, range.ras.count⟩, range.counted⟩

/-- Counting a prediction and, where it was wrong, a misprediction. -/
theorem InRange.count (range : bp.InRange) (wrong : Prop) [Decidable wrong] :
    InRange { bp with
      predictions := bp.predictions + 1
      mispredictions := if wrong then bp.mispredictions + 1 else bp.mispredictions } where
  lpht := range.lpht
  gpht := range.gpht
  choice := range.choice
  lht := range.lht
  ghr := range.ghr
  ras := ⟨range.ras.top, range.ras.count⟩
  counted := by
    have counted := range.counted
    dsimp only
    split <;> omega

/-- The local counter and history move with the outcome, and so does the global history. -/
theorem InRange.shift (range : bp.InRange) (hist li : Nat) (actual : Bool) :
    InRange { bp with
      lpht := setAt bp.lpht hist (saturate actual (bp.lpht hist))
      lht := setAt bp.lht li (shiftHistory lhtSize (bp.lht li) actual)
      ghr := shiftHistory gphtSize bp.ghr actual } where
  lpht := update_le range.lpht hist (saturate_le actual (range.lpht hist))
  gpht := range.gpht
  choice := range.choice
  lht := fun i => Nat.lt_succ_of_le (update_le (fun i => Nat.le_pred_of_lt (range.lht i)) li
    (Nat.le_pred_of_lt (shiftHistory_lt (by decide) _ actual)) i)
  ghr := shiftHistory_lt (by decide) _ actual
  ras := ⟨range.ras.top, range.ras.count⟩
  counted := range.counted

/-- The global counter and the selector stay counters. -/
theorem InRange.select (range : bp.InRange) (gi : Nat) (actual : Bool) {choice : Nat} (small : choice ≤ 3) :
    InRange { bp with
      gpht := setAt bp.gpht gi (saturate actual (bp.gpht gi))
      choice := setAt bp.choice gi choice } where
  lpht := range.lpht
  gpht := update_le range.gpht gi (saturate_le actual (range.gpht gi))
  choice := update_le range.choice gi small
  lht := range.lht
  ghr := range.ghr
  ras := ⟨range.ras.top, range.ras.count⟩
  counted := range.counted

theorem choice_le (bp : BranchPredictor) (range : bp.InRange) (gi : Nat) (localPred globalPred actual : Bool) :
    (if localPred != globalPred then
      let choice := if actual == globalPred && decide (bp.choice gi < 3) then bp.choice gi + 1 else bp.choice gi
      if actual == localPred && decide (choice > 0) then choice - 1 else choice
    else bp.choice gi) ≤ 3 := by
  have small := range.choice gi
  have raised : (if actual == globalPred && decide (bp.choice gi < 3) then bp.choice gi + 1 else bp.choice gi) ≤ 3 := by
    split
    · next room => exact of_decide_eq_true (Bool.and_eq_true_iff.mp room).2
    · exact small
  have lowered (turn : Bool) {choice : Nat} (small : choice ≤ 3) : (if turn then choice - 1 else choice) ≤ 3 := by
    cases turn with
    | true => exact (Nat.sub_le choice 1).trans small
    | false => exact small
  split
  · exact lowered _ raised
  · exact small

theorem InRange.update (range : bp.InRange) (ir : IRInst) : (bpredUpdate bp ir).InRange := by
  unfold bpredUpdate
  split
  · exact range
  · unfold train
    extract_lets pc actual counted learned hist localPred gi globalPred choice
    have inRange : learned.InRange := by
      have counts : counted.InRange := range.count _
      unfold learned
      split
      · exact counts.learn pc ir.dnpc
      · exact counts
    exact (inRange.shift hist (lhtIndex pc) actual).select gi actual (choice_le learned inRange gi localPred globalPred actual)

theorem InRange.update2 (range : bp.InRange) (ir : IRInst) : (bpred2Update bp ir).InRange := by
  unfold bpred2Update
  extract_lets pc tag actual counted entry learned hist lphi
  have counts : counted.InRange := range.count _
  have inRange : learned.InRange := by
    unfold learned
    split
    · exact ⟨counts.lpht, counts.gpht, counts.choice, counts.lht, counts.ghr, ⟨counts.ras.top, counts.ras.count⟩,
        counts.counted⟩
    · exact counts
  exact inRange.shift lphi (lhtIndex pc) actual

end BranchPredictor

/-! ## Indices -/

/-- The tables and their sizes. -/
inductive PredictorTable where
  | btb | lht | lpht | gpht | choice | ras | specLht
  deriving DecidableEq, Repr

def PredictorTable.size : PredictorTable → Nat
  | btb => btbSize
  | lht | lpht | specLht => lhtSize
  | gpht | choice => gphtSize
  | ras => rasSize

/-- The entries that `bpred_predict` reads and writes. -/
def predictIndices (bp : BranchPredictor) (pc : Word) (raw : Raw) : List (PredictorTable × Nat) :=
  if isRet raw && decide (bp.rasCount > 0) then [(.ras, bp.rasTop)]
  else
    (if isCall raw then [(.ras, (bp.rasTop + 1) % rasSize)] else []) ++
      [(.btb, btbIndex pc), (.lht, lhtIndex pc), (.lpht, bp.lht (lhtIndex pc)), (.gpht, bp.gphtIndex pc),
        (.choice, bp.gphtIndex pc)]

/-- The entries that `bpred_update` reads and writes. -/
def updateIndices (bp : BranchPredictor) (ir : IRInst) : List (PredictorTable × Nat) :=
  if ir.itype ≠ .branch ∧ ir.itype ≠ .jal ∧ ir.itype ≠ .jalr then []
  else
    [(.btb, btbIndex ir.pc), (.lht, lhtIndex ir.pc), (.lpht, bp.lht (lhtIndex ir.pc)), (.gpht, bp.gphtIndex ir.pc),
      (.choice, bp.gphtIndex ir.pc)]

/-- The entries that `bpred2_predict` reads. -/
def predict2Indices (pc : Word) : List (PredictorTable × Nat) :=
  [(.btb, btbIndex pc), (.specLht, lhtIndex pc), (.lpht, specLht (lhtIndex pc) % lhtSize)]

/-- The entries that `bpred2_update` reads and writes. -/
def update2Indices (bp : BranchPredictor) (ir : IRInst) : List (PredictorTable × Nat) :=
  [(.btb, btbIndex ir.pc), (.lht, lhtIndex ir.pc), (.lpht, bp.lht (lhtIndex ir.pc) % lhtSize)]

/-- Every index lies within its table. -/
def Within (indices : List (PredictorTable × Nat)) : Prop := ∀ access ∈ indices, access.2 < access.1.size

theorem btbIndex_lt (pc : Word) : btbIndex pc < btbSize := Nat.mod_lt _ (by decide)

theorem lhtIndex_lt (pc : Word) : lhtIndex pc < lhtSize := Nat.mod_lt _ (by decide)

theorem gphtIndex_lt (bp : BranchPredictor) (pc : Word) : bp.gphtIndex pc < gphtSize := Nat.mod_lt _ (by decide)

namespace BranchPredictor.InRange

variable {bp : BranchPredictor}

theorem predictIndices (range : bp.InRange) (pc : Word) (raw : Raw) : Within (predictIndices bp pc raw) := by
  unfold Sustemu.predictIndices Within
  have push : (bp.rasTop + 1) % rasSize < rasSize := Nat.mod_lt _ (by decide)
  split
  · simpa [PredictorTable.size] using range.ras.top
  · split <;>
      simp [PredictorTable.size, push, btbIndex_lt, lhtIndex_lt, gphtIndex_lt, range.lht]

theorem updateIndices (range : bp.InRange) (ir : IRInst) : Within (updateIndices bp ir) := by
  unfold Sustemu.updateIndices Within
  split
  · exact nofun
  · simp [PredictorTable.size, btbIndex_lt, lhtIndex_lt, gphtIndex_lt, range.lht]

theorem update2Indices (bp : BranchPredictor) (ir : IRInst) : Within (update2Indices bp ir) := by
  have masked : bp.lht (lhtIndex ir.pc) % lhtSize < lhtSize := Nat.mod_lt _ (by decide)
  simp [Sustemu.update2Indices, Within, PredictorTable.size, btbIndex_lt, lhtIndex_lt, masked]

end BranchPredictor.InRange

theorem predict2Indices_within (pc : Word) : Within (predict2Indices pc) := by
  have masked : specLht (lhtIndex pc) % lhtSize < lhtSize := Nat.mod_lt _ (by decide)
  simp [predict2Indices, Within, PredictorTable.size, btbIndex_lt, lhtIndex_lt, masked]

/-! ## Runs -/

/-- The state and every snapshot that a recovery may put back are in range. -/
structure TrackedPredictor.InRange (t : TrackedPredictor) : Prop where
  state : t.bp.InRange
  snaps : ∀ snap ∈ t.snaps, snap.1 < rasSize ∧ snap.2 ≤ rasSize

theorem PredictorStep.inRange {t t' : TrackedPredictor} (step : PredictorStep t t') (range : t.InRange) : t'.InRange := by
  cases step with
  | predict pc raw =>
      refine ⟨range.state.predict pc raw, fun snap member => ?_⟩
      rcases List.mem_cons.mp member with rfl | old
      · exact ⟨range.state.ras.top, range.state.ras.count⟩
      · exact range.snaps snap old
  | update ir => exact ⟨range.state.update ir, range.snaps⟩
  | update2 ir => exact ⟨range.state.update2 ir, range.snaps⟩
  | restore snapped =>
      have ⟨top, count⟩ := range.snaps _ snapped
      have state := range.state
      exact ⟨⟨state.lpht, state.gpht, state.choice, state.lht, state.ghr, ⟨top, count⟩, state.counted⟩, range.snaps⟩

theorem bpredInit_inRange : bpredInit.InRange where
  lpht := fun _ => Nat.zero_le 3
  gpht := fun _ => Nat.zero_le 3
  choice := fun _ => Nat.zero_le 3
  lht := fun _ => (by decide : 0 < lhtSize)
  ghr := by decide
  ras := bpredInit_bounded
  counted := Nat.le_refl 0

/-- Whatever is predicted, learned and recovered, the predictor stays in range, and the four functions index their
tables within bounds. -/
theorem predictor_in_range (t : TrackedPredictor) (reached : ReflTransGen PredictorStep ⟨bpredInit, []⟩ t) :
    t.bp.InRange ∧
      (∀ pc raw, Within (predictIndices t.bp pc raw)) ∧ (∀ ir, Within (updateIndices t.bp ir)) ∧
      (∀ pc, Within (predict2Indices pc)) ∧ ∀ ir, Within (update2Indices t.bp ir) := by
  have range : t.InRange := by
    induction reached with
    | refl => exact ⟨bpredInit_inRange, nofun⟩
    | tail _ step ih => exact step.inRange ih
  exact ⟨range.state, range.state.predictIndices, range.state.updateIndices, predict2Indices_within,
    BranchPredictor.InRange.update2Indices t.bp⟩

/-- A call is predicted and the prediction taken back. -/
theorem predictor_in_range_restored :
    InRange { (bpredPredict bpredInit 0x80000000 0x008000ef).2 with rasTop := 0, rasCount := 0 } :=
  (predictor_in_range
    ⟨{ (bpredPredict bpredInit 0x80000000 0x008000ef).2 with rasTop := 0, rasCount := 0 }, [(0, 0)]⟩
    ((ReflTransGen.single (.predict ⟨bpredInit, []⟩ 0x80000000 0x008000ef)).tail (.restore _ (by decide)))).1

end Sustemu
