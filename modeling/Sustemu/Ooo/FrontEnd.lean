import Mathlib.Algebra.Order.SuccPred
import Mathlib.Data.Nat.SuccPred
import Sustemu.Ooo.Phases

/-!
# The front end at any fetch width

`FETCH_WIDTH` is offered as a tunable. Here the three stages of the front end
are written for any width `W`, over the two latch arrays, the counters that
rename tests and two histories: what was fetched and what was allocated since
the last flush. The compaction after rename names slots 0 and 1 literally. At
width 1, slot 1 lies behind the array, and what the memory there holds is part
of a cycle's input.
-/

set_option autoImplicit false

namespace Sustemu

/-- Renaming takes a register from the free list. -/
def IRInst.renames (ir : IRInst) : Bool := (ir.rd.filter (· ≠ 0)).isSome

structure Front where
  latchIdRn : Nat → PipeReg
  latchIfId : Nat → PipeReg
  fetchPc : Word
  robCount : Nat
  rsUsed : Nat
  freeCount : Nat
  fetched : List IRInst
  allocated : List IRInst

/-- What a cycle takes from outside the front end: the counters as the back end
leaves them, its flush, the memory behind the latch array, and the decoded
instruction and predicted target at each slot and address. -/
structure FrontInput where
  robCount : Nat
  rsUsed : Nat
  freeCount : Nat
  flush : Option Word
  behind : PipeReg
  fetch : Nat → Word → IRInst × Option Word

namespace Front

variable (W : Nat)

/-- After reset nothing is latched. -/
def start (pc : Word) : Front where
  latchIdRn := fun _ => ⟨IRInst.zero, false⟩
  latchIfId := fun _ => ⟨IRInst.zero, false⟩
  fetchPc := pc
  robCount := 0
  rsUsed := 0
  freeCount := 32
  fetched := []
  allocated := []

/-! ## Stages -/

/-- A misprediction empties both arrays and redirects fetch. -/
def redirected (target : Word) (f : Front) : Front :=
  { f with
    latchIdRn := fun s => if s < W then { f.latchIdRn s with valid := false } else f.latchIdRn s
    latchIfId := fun s => if s < W then { f.latchIfId s with valid := false } else f.latchIfId s
    fetchPc := target
    fetched := []
    allocated := [] }

/-- Commit, the functional units and issue, as the front end sees them. -/
def backEnd (input : FrontInput) (f : Front) : Front :=
  let f := { f with robCount := input.robCount, rsUsed := input.rsUsed, freeCount := input.freeCount }
  match input.flush with
  | some target => f.redirected W target
  | none => f

/-- The tests that stop the rename loop at slot `n`. -/
def stalls (f : Front) (n : Nat) : Bool :=
  let ir := (f.latchIdRn n).ir
  ir.serializing && (decide (0 < f.robCount) || decide (0 < n)) || decide (robSize ≤ f.robCount) ||
    decide (rsSize ≤ f.rsUsed) || ir.renames && decide (f.freeCount = 0)

def renameSlot (f : Front) (n : Nat) : Front :=
  { f with
    latchIdRn := Lib.setAt f.latchIdRn n { f.latchIdRn n with valid := false }
    robCount := f.robCount + 1
    rsUsed := f.rsUsed + 1
    freeCount := if (f.latchIdRn n).ir.renames then f.freeCount - 1 else f.freeCount
    allocated := f.allocated ++ [(f.latchIdRn n).ir] }

/-- The rename loop over the remaining slots. -/
def renameLoop : List Nat → Front → Front
  | [], f => f
  | n :: rest, f => if !(f.latchIdRn n).valid || f.stalls n then f else renameLoop rest (f.renameSlot n)

/-- What `ooo.latch_id_rn[1]` denotes. -/
def slotOne (behind : PipeReg) (f : Front) : PipeReg := if 1 < W then f.latchIdRn 1 else behind

def compact (behind : PipeReg) (f : Front) : Front :=
  if !(f.latchIdRn 0).valid && (f.slotOne W behind).valid then
    { f with latchIdRn := fun s =>
        if s = 0 then f.slotOne W behind
        else if s = 1 then { f.slotOne W behind with valid := false }
        else f.latchIdRn s }
  else f

/-- `ooo_stage_rn`. -/
def stageRn (behind : PipeReg) (f : Front) : Front :=
  if !(f.latchIdRn 0).valid then f else (renameLoop (List.range W) f).compact W behind

/-- `ooo_stage_id`. -/
def stageId (f : Front) : Front :=
  if !(f.latchIfId 0).valid || (f.latchIdRn 0).valid then f
  else
    { f with
      latchIdRn := fun s => if s < W then f.latchIfId s else f.latchIdRn s
      latchIfId := fun s => if s < W then { f.latchIfId s with valid := false } else f.latchIfId s }

/-- Latch a decoded instruction and go on at its predicted target, if it has one. -/
def setFetched (f : Front) (s : Nat) (pc : Word) (answer : IRInst × Option Word) : Front :=
  { f with
    latchIfId := Lib.setAt f.latchIfId s ⟨answer.1, true⟩
    fetchPc := answer.2.getD (pc + 4)
    fetched := f.fetched ++ [answer.1] }

/-- The fetch loop over the remaining slots. -/
def fetchLoop (fetch : Nat → Word → IRInst × Option Word) : List Nat → Front → Front
  | [], f => f
  | s :: rest, f =>
      let pc := Engine.truncPc f.fetchPc
      if !inDram pc then { f with fetchPc := pc + 4 }
      else
        let answer := fetch s pc
        if answer.2.isSome then f.setFetched s pc answer else fetchLoop fetch rest (f.setFetched s pc answer)

/-- `ooo_stage_if`. -/
def stageIf (fetch : Nat → Word → IRInst × Option Word) (f : Front) : Front :=
  if (f.latchIfId 0).valid then f else fetchLoop fetch (List.range W) f

/-- The states of one cycle, one after each part of `ooo_cycle`. -/
def through (input : FrontInput) (f : Front) : List Front :=
  let back := f.backEnd W input
  let renamed := back.stageRn W input.behind
  let decoded := renamed.stageId W
  [back, renamed, decoded, decoded.stageIf W input.fetch]

def cycle (input : FrontInput) (f : Front) : Front :=
  (((f.backEnd W input).stageRn W input.behind).stageId W).stageIf W input.fetch

def run : List FrontInput → Front → Front
  | [], f => f
  | input :: rest, f => run rest (f.cycle W input)

/-! ## What the stages should keep -/

/-- Nothing dropped, doubled or reordered, and the decoded group starts in slot 0. -/
structure InOrder (f : Front) : Prop where
  sequence : f.allocated <+: f.fetched
  canonical : (f.latchIdRn 0).valid = false → ∀ s < W, (f.latchIdRn s).valid = false

/-- The tests at slot `n` once the slots before it are renamed. -/
def stallsAfter (f : Front) (n : Nat) : Bool :=
  let ir := (f.latchIdRn n).ir
  ir.serializing && decide (0 < f.robCount + n) || decide (robSize ≤ f.robCount + n) ||
    decide (rsSize ≤ f.rsUsed + n) ||
    ir.renames && decide (f.freeCount ≤ (List.range n).countP fun s => (f.latchIdRn s).ir.renames)

/-- Rename takes nothing, or at most two instructions are left, or it takes the
group whole; and no instruction seems to stand behind an array of one slot. -/
structure Whole (behind : PipeReg) (f : Front) : Prop where
  inside : W = 1 → behind.valid = false
  group : f.stallsAfter 0 = true ∨ (∀ s < W, 2 ≤ s → (f.latchIdRn s).valid = false) ∨
    ∀ s < W, (f.latchIdRn s).valid = true → f.stallsAfter s = false

/-- Every rename of a run meets the condition. -/
def AllWhole : List FrontInput → Front → Prop
  | [], _ => True
  | input :: rest, f => (f.backEnd W input).Whole W input.behind ∧ AllWhole rest (f.cycle W input)

/-- The first `n` slots of an array are occupied, and no others. -/
structure Occupies (latch : Nat → PipeReg) (n : Nat) : Prop where
  fits : n ≤ W
  valid : ∀ s < W, (latch s).valid = decide (s < n)

/-- Allocated, decoded and fetched instructions make up one sequence. -/
def Kept (f : Front) : Prop :=
  ∃ a b, Occupies W f.latchIdRn a ∧ Occupies W f.latchIfId b ∧
    f.allocated ++ (List.range a).map (fun s => (f.latchIdRn s).ir) ++
      (List.range b).map (fun s => (f.latchIfId s).ir) = f.fetched

variable {W} {f : Front}

theorem Kept.inOrder (wide : 0 < W) (kept : f.Kept W) : f.InOrder W := by
  obtain ⟨a, b, idRn, _, sequence⟩ := kept
  constructor
  · rw [← sequence, List.append_assoc]
    exact List.prefix_append _ _
  · intro empty s inside
    have none : a = 0 := by simpa [empty] using (idRn.valid 0 wide).symm
    simp [idRn.valid s inside, none]

theorem kept_start (pc : Word) : (start pc).Kept W :=
  ⟨0, 0, ⟨Nat.zero_le W, fun _ _ => rfl⟩, ⟨Nat.zero_le W, fun _ _ => rfl⟩, rfl⟩

theorem Kept.redirected (target : Word) : (f.redirected W target).Kept W := by
  refine ⟨0, 0, ⟨Nat.zero_le W, ?_⟩, ⟨Nat.zero_le W, ?_⟩, rfl⟩
  all_goals
    intro s inside
    simp [Front.redirected, inside]

theorem Kept.backEnd (kept : f.Kept W) (input : FrontInput) : (f.backEnd W input).Kept W := by
  unfold Front.backEnd
  cases input.flush with
  | none => exact kept
  | some target => exact Kept.redirected target

/-! ## Rename -/

/-- The state once the first `n` slots are renamed. -/
def renamed (f : Front) (n : Nat) : Front :=
  { f with
    latchIdRn := fun s => if s < n then { f.latchIdRn s with valid := false } else f.latchIdRn s
    robCount := f.robCount + n
    rsUsed := f.rsUsed + n
    freeCount := f.freeCount - (List.range n).countP fun s => (f.latchIdRn s).ir.renames
    allocated := f.allocated ++ (List.range n).map fun s => (f.latchIdRn s).ir }

theorem renamed_zero (f : Front) : f.renamed 0 = f := by simp [renamed]

theorem renamed_latch (f : Front) (n : Nat) : (f.renamed n).latchIdRn n = f.latchIdRn n := by simp [renamed]

theorem renameSlot_renamed (f : Front) (n : Nat) : (f.renamed n).renameSlot n = f.renamed (n + 1) := by
  have latches : Lib.setAt (f.renamed n).latchIdRn n { f.latchIdRn n with valid := false } =
      (f.renamed (n + 1)).latchIdRn := by
    funext s
    rcases Nat.lt_trichotomy s n with older | rfl | younger
    · simp [renamed, Lib.setAt_of_ne (Nat.ne_of_lt older), older, Nat.le_of_lt older]
    · simp [renamed]
    · simp [renamed, Lib.setAt_of_ne (Nat.ne_of_gt younger), Nat.not_lt_of_gt younger, Nat.not_le_of_gt younger]
  have names : (if (f.latchIdRn n).ir.renames then (f.renamed n).freeCount - 1 else (f.renamed n).freeCount) =
      (f.renamed (n + 1)).freeCount := by
    cases takes : (f.latchIdRn n).ir.renames <;> simp [renamed, List.range_succ, takes, Nat.sub_sub]
  unfold renameSlot
  rw [renamed_latch, latches, names]
  simp [renamed, List.range_succ, Nat.add_assoc]

theorem stalls_renamed (f : Front) (n : Nat) : (f.renamed n).stalls n = f.stallsAfter n := by
  have earlier : (decide (0 < (f.renamed n).robCount) || decide (0 < n)) = decide (0 < f.robCount + n) := by
    rw [← Bool.decide_or]
    exact decide_eq_decide.mpr (by simp only [renamed]; omega)
  unfold stalls stallsAfter
  rw [renamed_latch, earlier]
  simp [renamed, Nat.sub_eq_zero_iff_le]

/-- The loop stops at the first slot that is empty or stalls. -/
theorem renameLoop_renamed (f : Front) (n k : Nat) :
    ∃ m, n ≤ m ∧ m ≤ n + k ∧ renameLoop (List.range' n k) (f.renamed n) = f.renamed m ∧
      (∀ s, n ≤ s → s < m → (f.latchIdRn s).valid = true ∧ f.stallsAfter s = false) ∧
      (m < n + k → (f.latchIdRn m).valid = false ∨ f.stallsAfter m = true) := by
  induction k generalizing n with
  | zero => exact ⟨n, Nat.le_refl n, Nat.le_refl n, rfl, fun s _ _ => by omega, fun _ => by omega⟩
  | succ k ih =>
      rw [List.range'_succ, renameLoop, renamed_latch, stalls_renamed, renameSlot_renamed]
      cases valid : (f.latchIdRn n).valid with
      | false => exact ⟨n, Nat.le_refl n, by omega, rfl, fun s _ _ => by omega, fun _ => .inl valid⟩
      | true =>
          cases stopped : f.stallsAfter n with
          | true => exact ⟨n, Nat.le_refl n, by omega, rfl, fun s _ _ => by omega, fun _ => .inr stopped⟩
          | false =>
              obtain ⟨m, lower, upper, result, taken, stop⟩ := ih (n + 1)
              refine ⟨m, by omega, by omega, result, fun s above below => ?_, fun _ => stop (by omega)⟩
              rcases Nat.eq_or_lt_of_le above with rfl | above
              · exact ⟨valid, stopped⟩
              · exact taken s above below

/-- What the loop does to a group of `a` instructions in the first slots. -/
theorem renameLoop_group {a : Nat} (idRn : Occupies W f.latchIdRn a) :
    ∃ m ≤ a, renameLoop (List.range W) f = f.renamed m ∧ (∀ s < m, f.stallsAfter s = false) ∧
      (m < a → f.stallsAfter m = true) := by
  obtain ⟨m, _, upper, result, taken, stop⟩ := renameLoop_renamed f 0 W
  rw [renamed_zero, ← List.range_eq_range'] at result
  have bound : m ≤ a := by
    rcases Nat.eq_zero_or_pos m with rfl | some
    · exact Nat.zero_le a
    · have last := (taken (m - 1) (Nat.zero_le _) (by omega)).1
      rw [idRn.valid (m - 1) (by omega)] at last
      have := of_decide_eq_true last
      omega
  refine ⟨m, bound, result, fun s below => (taken s (Nat.zero_le s) below).2, fun left => ?_⟩
  have inside : m < W := Nat.lt_of_lt_of_le left idRn.fits
  rcases stop (by omega) with empty | stalled
  · rw [idRn.valid m inside] at empty
    exact absurd left (of_decide_eq_false empty)
  · exact stalled

theorem compact_of_valid (behind : PipeReg) (held : (f.latchIdRn 0).valid = true) : f.compact W behind = f := by
  simp [compact, held]

theorem compact_of_empty {behind : PipeReg} (empty : (f.slotOne W behind).valid = false) :
    f.compact W behind = f := by
  simp [compact, empty]

/-- The group was taken whole. -/
theorem Kept.renamed_all {a b : Nat} {behind : PipeReg} (wide : 0 < W) (idRn : Occupies W f.latchIdRn a)
    (ifId : Occupies W f.latchIfId b) (inside : W = 1 → behind.valid = false)
    (sequence : f.allocated ++ (List.range a).map (fun s => (f.latchIdRn s).ir) ++
      (List.range b).map (fun s => (f.latchIfId s).ir) = f.fetched) : ((f.renamed a).compact W behind).Kept W := by
  have vacant : ∀ s < W, ((f.renamed a).latchIdRn s).valid = false := by
    intro s below
    by_cases taken : s < a
    · simp [renamed, taken]
    · simp [renamed, taken, idRn.valid s below]
  have empty : ((f.renamed a).slotOne W behind).valid = false := by
    unfold slotOne
    split
    · next wide => exact vacant 1 wide
    · next narrow => exact inside (by omega)
  rw [compact_of_empty empty]
  refine ⟨0, b, ⟨Nat.zero_le W, fun s below => by simp [vacant s below]⟩, ifId, ?_⟩
  simpa [renamed] using sequence

/-- Slot 1 is left and moves to slot 0. -/
theorem Kept.renamed_one {b : Nat} {behind : PipeReg} (idRn : Occupies W f.latchIdRn 2)
    (ifId : Occupies W f.latchIfId b)
    (sequence : f.allocated ++ (List.range 2).map (fun s => (f.latchIdRn s).ir) ++
      (List.range b).map (fun s => (f.latchIfId s).ir) = f.fetched) : ((f.renamed 1).compact W behind).Kept W := by
  have wide : 1 < W := idRn.fits
  have left : (f.latchIdRn 1).valid = true := by simp [idRn.valid 1 wide]
  have moved : ((f.renamed 1).compact W behind).latchIdRn = fun s =>
      if s = 0 then f.latchIdRn 1 else if s = 1 then { f.latchIdRn 1 with valid := false } else f.latchIdRn s := by
    funext s
    rcases s with _ | s <;> simp [compact, slotOne, wide, renamed, left]
  have rest : ((f.renamed 1).compact W behind).allocated = (f.renamed 1).allocated ∧
      ((f.renamed 1).compact W behind).latchIfId = f.latchIfId ∧
      ((f.renamed 1).compact W behind).fetched = f.fetched := by
    unfold compact
    split <;> exact ⟨rfl, rfl, rfl⟩
  refine ⟨1, b, ⟨Nat.le_of_lt wide, fun s below => ?_⟩, ?_, ?_⟩
  · rw [moved]
    rcases s with _ | _ | s
    · simpa using left
    · simp
    · have above : ¬ s + 2 < 2 := by omega
      simpa [above] using idRn.valid (s + 2) below
  · rw [rest.2.1]
    exact ifId
  · rw [moved, rest.1, rest.2.1, rest.2.2, ← sequence]
    simp [renamed, List.range_succ]

theorem Kept.stageRn (wide : 0 < W) {behind : PipeReg} (kept : f.Kept W) (whole : f.Whole W behind) :
    (f.stageRn W behind).Kept W := by
  unfold Front.stageRn
  cases held : (f.latchIdRn 0).valid with
  | false => simpa using kept
  | true =>
      rw [Bool.not_true, if_neg Bool.false_ne_true]
      obtain ⟨a, b, idRn, ifId, sequence⟩ := kept
      obtain ⟨m, bound, result, taken, stop⟩ := renameLoop_group idRn
      rw [result]
      rcases Nat.eq_or_lt_of_le bound with rfl | left
      · exact Kept.renamed_all wide idRn ifId whole.inside sequence
      · rcases Nat.eq_zero_or_pos m with rfl | some
        · rw [renamed_zero, compact_of_valid behind held]
          exact ⟨a, b, idRn, ifId, sequence⟩
        · have inside : m < W := Nat.lt_of_lt_of_le left idRn.fits
          rcases whole.group with stalled | small | free
          · rw [taken 0 some] at stalled
            cases stalled
          · have two : a ≤ 2 := by
              by_contra more
              have third := idRn.valid 2 (by have := idRn.fits; omega)
              rw [small 2 (by have := idRn.fits; omega) (Nat.le_refl 2)] at third
              simp at third
              omega
            obtain ⟨rfl, rfl⟩ : m = 1 ∧ a = 2 := by omega
            exact Kept.renamed_one idRn ifId sequence
          · have valid : (f.latchIdRn m).valid = true := by simp [idRn.valid m inside, left]
            have stalled := free m inside valid
            rw [stop left] at stalled
            cases stalled

/-! ## Decode and fetch -/

theorem Kept.stageId (kept : f.Kept W) (wide : 0 < W) : (f.stageId W).Kept W := by
  unfold Front.stageId
  split
  · exact kept
  · next moves =>
      simp only [Bool.or_eq_true, Bool.not_eq_true', not_or, Bool.not_eq_true, Bool.not_eq_false] at moves
      obtain ⟨a, b, idRn, ifId, sequence⟩ := kept
      have none : a = 0 := by simpa [moves.2] using (idRn.valid 0 wide).symm
      subst none
      refine ⟨b, 0, ⟨ifId.fits, ?_⟩, ⟨Nat.zero_le W, ?_⟩, ?_⟩
      · intro s below
        simp [below, ifId.valid s below]
      · intro s below
        simp [below]
      · have group : ∀ s ∈ List.range b, (if s < W then f.latchIfId s else f.latchIdRn s).ir = (f.latchIfId s).ir := by
          intro s member
          rw [if_pos (Nat.lt_of_lt_of_le (List.mem_range.mp member) ifId.fits)]
        rw [List.map_congr_left group, ← sequence]
        simp

theorem Kept.fetchLoop {fetch : Nat → Word → IRInst × Option Word} {a n k : Nat} (idRn : Occupies W f.latchIdRn a)
    (ifId : Occupies W f.latchIfId n) (fits : n + k = W)
    (sequence : f.allocated ++ (List.range a).map (fun s => (f.latchIdRn s).ir) ++
      (List.range n).map (fun s => (f.latchIfId s).ir) = f.fetched) :
    (Front.fetchLoop fetch (List.range' n k) f).Kept W := by
  induction k generalizing n f with
  | zero => exact ⟨a, n, idRn, ifId, sequence⟩
  | succ k ih =>
      rw [List.range'_succ, Front.fetchLoop]
      split
      · exact ⟨a, n, idRn, ifId, sequence⟩
      · generalize fetch n (Engine.truncPc f.fetchPc) = answer
        have filled : Occupies W (Lib.setAt f.latchIfId n ⟨answer.1, true⟩) (n + 1) := by
          refine ⟨by omega, fun s below => ?_⟩
          rcases eq_or_ne s n with rfl | other
          · simp
          · rw [Lib.setAt_of_ne other, ifId.valid s below]
            exact decide_eq_decide.mpr (by omega)
        have extended : f.allocated ++ (List.range a).map (fun s => (f.latchIdRn s).ir) ++
            (List.range (n + 1)).map (fun s => (Lib.setAt f.latchIfId n ⟨answer.1, true⟩ s).ir) =
            f.fetched ++ [answer.1] := by
          have older : ∀ s ∈ List.range n, (Lib.setAt f.latchIfId n ⟨answer.1, true⟩ s).ir = (f.latchIfId s).ir := by
            intro s member
            rw [Lib.setAt_of_ne (Nat.ne_of_lt (List.mem_range.mp member))]
          rw [List.range_succ, List.map_append, List.map_congr_left older, ← sequence]
          simp
        dsimp only
        split
        · exact ⟨a, n + 1, idRn, filled, extended⟩
        · exact ih (f := f.setFetched n _ answer) idRn filled (by omega) extended

theorem Kept.stageIf (kept : f.Kept W) (wide : 0 < W) (fetch : Nat → Word → IRInst × Option Word) :
    (f.stageIf W fetch).Kept W := by
  unfold Front.stageIf
  split
  · exact kept
  · next empty =>
      obtain ⟨a, b, idRn, ifId, sequence⟩ := kept
      have none : b = 0 := by simpa [Bool.eq_false_iff.mpr empty] using (ifId.valid 0 wide).symm
      subst none
      rw [List.range_eq_range']
      exact Kept.fetchLoop idRn ifId (Nat.zero_add W) sequence

/-! ## Runs -/

theorem Kept.through (kept : f.Kept W) (wide : 0 < W) {input : FrontInput}
    (whole : (f.backEnd W input).Whole W input.behind) : ∀ g ∈ f.through W input, g.Kept W := by
  have back := kept.backEnd input
  have named := back.stageRn wide whole
  have decoded := named.stageId wide
  simp only [Front.through, List.mem_cons, List.not_mem_nil, or_false, forall_eq_or_imp, forall_eq]
  exact ⟨back, named, decoded, decoded.stageIf wide input.fetch⟩

theorem cycle_mem_through (f : Front) (input : FrontInput) : f.cycle W input ∈ f.through W input := by
  simp [cycle, through]

theorem Kept.run (kept : f.Kept W) (wide : 0 < W) {older : List FrontInput} {input : FrontInput}
    (whole : f.AllWhole W (older ++ [input])) : ∀ g ∈ (f.run W older).through W input, g.Kept W := by
  induction older generalizing f with
  | nil => exact kept.through wide whole.1
  | cons first rest ih => exact ih (kept.through wide whole.1 _ (cycle_mem_through f first)) whole.2

/-- At the configured width every rename meets the condition. -/
theorem whole_two (behind : PipeReg) (f : Front) : f.Whole 2 behind :=
  ⟨fun narrow => absurd narrow (by decide), .inr (.inl fun s below above => by omega)⟩

theorem allWhole_two (inputs : List FrontInput) (f : Front) : f.AllWhole 2 inputs := by
  induction inputs generalizing f with
  | nil => trivial
  | cons input rest ih => exact ⟨whole_two _ _, ih _⟩

/-! ## Groups that break up -/

/-- Every third instruction of a fetch group is a fence, and behind the array
there seems to be an instruction. -/
def fenceThird (robCount : Nat) : FrontInput where
  robCount := robCount
  rsUsed := robCount
  freeCount := 32
  flush := none
  behind := ⟨IRInst.zero, true⟩
  fetch := fun s pc => ({ IRInst.zero with pc := pc, serializing := decide (s = 2) }, none)

/-- The first three slots hold two plain instructions and a fence. -/
structure FenceGroup (latch : Nat → PipeReg) : Prop where
  valid : ∀ s < 3, (latch s).valid = true
  plain : ∀ s < 2, (latch s).ir.serializing = false ∧ (latch s).ir.renames = false
  fence : (latch 2).ir.serializing = true

theorem fetchLoop_latchIdRn (fetch : Nat → Word → IRInst × Option Word) (slots : List Nat) (f : Front) :
    (fetchLoop fetch slots f).latchIdRn = f.latchIdRn := by
  induction slots generalizing f with
  | nil => rfl
  | cons s rest ih =>
      rw [fetchLoop]
      split
      · rfl
      · dsimp only
        split
        · rfl
        · rw [ih]
          rfl

theorem fetchLoop_other (fetch : Nat → Word → IRInst × Option Word) {slots : List Nat} {t : Nat} (f : Front)
    (other : t ∉ slots) : (fetchLoop fetch slots f).latchIfId t = f.latchIfId t := by
  induction slots generalizing f with
  | nil => rfl
  | cons s rest ih =>
      rw [List.mem_cons, not_or] at other
      rw [fetchLoop]
      split
      · rfl
      · dsimp only
        split
        · exact Lib.setAt_of_ne other.1 _ _
        · rw [ih _ other.2]
          exact Lib.setAt_of_ne other.1 _ _

theorem fetchLoop_congr {fetch fetch' : Nat → Word → IRInst × Option Word} {slots : List Nat}
    (same : ∀ s ∈ slots, fetch s = fetch' s) (f : Front) : fetchLoop fetch slots f = fetchLoop fetch' slots f := by
  induction slots generalizing f with
  | nil => rfl
  | cons s rest ih =>
      have others := ih fun t member => same t (List.mem_cons_of_mem s member)
      simp only [fetchLoop, same s (List.mem_cons_self ..), others]

theorem fetchLoop_goes {fetch : Nat → Word → IRInst × Option Word} {s : Nat} {rest : List Nat} (f : Front)
    (mapped : inDram (Engine.truncPc f.fetchPc) = true) (next : (fetch s (Engine.truncPc f.fetchPc)).2 = none) :
    fetchLoop fetch (s :: rest) f =
      fetchLoop fetch rest (f.setFetched s (Engine.truncPc f.fetchPc) (fetch s (Engine.truncPc f.fetchPc))) := by
  simp [fetchLoop, mapped, next]

/-- The rest of the group leaves the first three slots alone. -/
theorem fetch_fenceGroup (k : Nat) :
    FenceGroup (fetchLoop (fenceThird 0).fetch (List.range (k + 3)) (start 0x80000000)).latchIfId := by
  rw [List.range_eq_range', List.range'_succ, List.range'_succ, List.range'_succ,
    fetchLoop_goes _ (by decide) (by decide), fetchLoop_goes _ (by decide) (by decide),
    fetchLoop_goes _ (by decide) (by decide)]
  generalize three : setFetched _ (0 + 1 + 1) _ _ = f
  have group : FenceGroup f.latchIfId := by
    rw [← three]
    exact ⟨by decide, by decide, by decide⟩
  have kept : ∀ s < 3, (fetchLoop (fenceThird 0).fetch (List.range' (0 + 1 + 1 + 1) k) f).latchIfId s = f.latchIfId s :=
    fun s below => fetchLoop_other _ f (by simp; omega)
  constructor
  · intro s below
    rw [kept s below]
    exact group.valid s below
  · intro s below
    rw [kept s (Nat.lt_succ_of_lt below)]
    exact group.plain s below
  · rw [kept 2 (by decide)]
    exact group.fence

/-- Rename stops at the fence, and what is left does not start in slot 0. -/
theorem FenceGroup.left {k : Nat} {behind : PipeReg} (group : FenceGroup f.latchIdRn) (rob : f.robCount = 0)
    (stations : f.rsUsed = 0) : ¬ (f.stageRn (k + 3) behind).InOrder (k + 3) := by
  obtain ⟨m, _, upper, result, taken, stop⟩ := renameLoop_renamed f 0 (k + 3)
  rw [renamed_zero, ← List.range_eq_range'] at result
  have goes : ∀ s < 2, f.stallsAfter s = false := by
    intro s below
    obtain ⟨plain, keeps⟩ := group.plain s below
    rcases s with _ | _ | s
    · simp [stallsAfter, plain, keeps, rob, stations, robSize, rsSize]
    · simp [stallsAfter, plain, keeps, rob, stations, robSize, rsSize]
    · omega
  have stalls : f.stallsAfter 2 = true := by simp [stallsAfter, group.fence]
  have two : m = 2 := by
    rcases Nat.lt_trichotomy m 2 with early | rfl | late
    · rcases stop (by omega) with empty | stalled
      · rw [group.valid m (Nat.lt_succ_of_lt early)] at empty
        cases empty
      · rw [goes m early] at stalled
        cases stalled
    · rfl
    · have passed := (taken 2 (Nat.zero_le 2) late).2
      rw [stalls] at passed
      cases passed
  subst two
  have held : (f.latchIdRn 0).valid = true := group.valid 0 (by decide)
  have compacted : (f.renamed 2).compact (k + 3) behind = f.renamed 2 := compact_of_empty (by simp [slotOne, renamed])
  have stage : f.stageRn (k + 3) behind = f.renamed 2 := by
    unfold stageRn
    rw [held, Bool.not_true, if_neg Bool.false_ne_true, result, compacted]
  rw [stage]
  intro inOrder
  have third := inOrder.canonical (by simp [renamed]) 2 (by omega)
  rw [renamed_latch, group.valid 2 (by decide)] at third
  cases third

theorem stageIf_latchIdRn (fetch : Nat → Word → IRInst × Option Word) (f : Front) :
    (f.stageIf W fetch).latchIdRn = f.latchIdRn := by
  unfold stageIf
  split
  · rfl
  · exact fetchLoop_latchIdRn fetch _ f

theorem FenceGroup.stageId {k : Nat} (group : FenceGroup f.latchIfId) (empty : (f.latchIdRn 0).valid = false) :
    FenceGroup (f.stageId (k + 3)).latchIdRn := by
  have moved : ∀ s < 3, (f.stageId (k + 3)).latchIdRn s = f.latchIfId s := by
    intro s below
    have inside : s < k + 3 := by omega
    simp [Front.stageId, group.valid 0 (by decide), empty, inside]
  constructor
  · intro s below
    rw [moved s below]
    exact group.valid s below
  · intro s below
    rw [moved s (Nat.lt_succ_of_lt below)]
    exact group.plain s below
  · rw [moved 2 (by decide)]
    exact group.fence

theorem stageRn_of_empty {behind : PipeReg} (empty : (f.latchIdRn 0).valid = false) : f.stageRn W behind = f := by
  simp [Front.stageRn, empty]

/-- The third slot of a wide group is left over. -/
theorem wide_breaks (k : Nat) :
    ∃ g ∈ ((start 0x80000000).run (k + 3) [fenceThird 0, fenceThird 0]).through (k + 3) (fenceThird 0),
      ¬ g.InOrder (k + 3) := by
  have fetched : FenceGroup ((start 0x80000000).cycle (k + 3) (fenceThird 0)).latchIfId := fetch_fenceGroup k
  have idle : (((start 0x80000000).cycle (k + 3) (fenceThird 0)).latchIdRn 0).valid = false :=
    congrArg (fun latch => (latch 0).valid) (stageIf_latchIdRn _ _)
  rw [show (start 0x80000000).run (k + 3) [fenceThird 0, fenceThird 0] =
    ((start 0x80000000).cycle (k + 3) (fenceThird 0)).cycle (k + 3) (fenceThird 0) from rfl]
  generalize (start 0x80000000).cycle (k + 3) (fenceThird 0) = f at fetched idle
  have decoded : FenceGroup (f.cycle (k + 3) (fenceThird 0)).latchIdRn := by
    unfold cycle
    rw [stageIf_latchIdRn, stageRn_of_empty (show ((f.backEnd (k + 3) (fenceThird 0)).latchIdRn 0).valid = false from idle)]
    exact FenceGroup.stageId fetched idle
  exact ⟨_, List.mem_cons_of_mem _ (List.mem_cons_self ..), FenceGroup.left decoded rfl rfl⟩

/-- At width 1 compaction takes what lies behind the array. -/
theorem narrow_breaks :
    ¬ ((start 0x80000000).run 1 [fenceThird 0, fenceThird 0, fenceThird 0, fenceThird 1]).InOrder 1 := by
  intro inOrder
  have pcs := inOrder.sequence.map (·.pc)
  revert pcs
  decide

/-- The front end keeps its order in every run whose renames meet the condition,
and in every run only at the configured width. -/
theorem front_end_in_order_iff (wide : 0 < W) :
    (∀ pc older input, (start pc).AllWhole W (older ++ [input]) →
      ∀ g ∈ ((start pc).run W older).through W input, g.InOrder W) ∧
    ((∀ pc older input, ∀ g ∈ ((start pc).run W older).through W input, g.InOrder W) ↔ W = 2) := by
  have keeps : ∀ pc older input, (start pc).AllWhole W (older ++ [input]) →
      ∀ g ∈ ((start pc).run W older).through W input, g.InOrder W :=
    fun pc older input whole g state => ((kept_start pc).run wide whole g state).inOrder wide
  refine ⟨keeps, fun always => ?_, ?_⟩
  · rcases W with _ | _ | _ | k
    · exact absurd wide (Nat.lt_irrefl 0)
    · exact absurd (always 0x80000000 [fenceThird 0, fenceThird 0, fenceThird 0] (fenceThird 1) _ (cycle_mem_through _ _))
        narrow_breaks
    · rfl
    · obtain ⟨g, state, broken⟩ := wide_breaks k
      exact absurd (always _ _ _ g state) broken
  · rintro rfl pc older input
    exact keeps pc older input (allWhole_two _ _)

/-- At width 2 the same program stays in order. -/
theorem front_end_in_order_configured :
    0 < 2 ∧ (start 0x80000000).AllWhole 2 ([fenceThird 0, fenceThird 0, fenceThird 0] ++ [fenceThird 2]) ∧
      ∀ g ∈ ((start 0x80000000).run 2 [fenceThird 0, fenceThird 0, fenceThird 0]).through 2 (fenceThird 2),
        g.InOrder 2 :=
  ⟨by decide, allWhole_two _ _, (front_end_in_order_iff (by decide)).1 _ _ _ (allWhole_two _ _)⟩

/-- At width 3 the fence of the first group is dropped. -/
theorem fence_dropped :
    let f := (start 0x80000000).run 3 [fenceThird 0, fenceThird 0, fenceThird 0, fenceThird 2]
    f.allocated.map (·.pc) = [0x80000000, 0x80000004, 0x8000000c, 0x80000010] ∧
      f.fetched.map (·.pc) = [0x80000000, 0x80000004, 0x80000008, 0x8000000c, 0x80000010, 0x80000014, 0x80000018,
        0x8000001c, 0x80000020, 0x80000024, 0x80000028, 0x8000002c] ∧
      ¬ f.InOrder 3 := by
  refine ⟨by decide, by decide, fun inOrder => ?_⟩
  have pcs := inOrder.sequence.map (·.pc)
  revert pcs
  decide

end Front

end Sustemu
