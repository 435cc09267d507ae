import Sustemu.Cpu.ReturnStack
import Sustemu.Ooo.FetchedPath

/-!
# The return-address stack across recoveries

Fetch records where the stack stood before it predicted an instruction, and a
recovery at that instruction puts the stack back there. So the stack is that of
the fetched path without the instructions at which a recovery was made. The
entries are not recorded: a wrong path that returns and then calls writes over
one that the recovery brings back. If every call of a wrong path is made on top
of what the branch found, and finds room there, the entries are still there.
-/

set_option autoImplicit false

namespace Sustemu

open Lib Engine BranchPredictor

def Node.inst (x : Node) : Word × Raw := (x.ir.pc, x.ir.raw)

/-- The instructions of a path whose push or pop no recovery took back. -/
def kept (path : List Node) : List (Word × Raw) := (path.filter fun x => !x.recovered).map Node.inst

/-- The predictor after the pushes and pops of a path. -/
def predictPath (path : List Node) : BranchPredictor := predictAll bpredInit (kept path)

theorem kept_settles {path path' : List Node} (settles : List.Forall₂ Node.Settles path path') : kept path' = kept path := by
  induction settles with
  | nil => rfl
  | cons head tail ih =>
      unfold kept at ih ⊢
      rw [List.filter_cons, List.filter_cons, head.recovered]
      split
      · rw [List.map_cons, List.map_cons, ih, Node.inst, head.pc, head.raw]
        rfl
      · exact ih

theorem predictPath_settles {path path' : List Node} (settles : List.Forall₂ Node.Settles path path') :
    predictPath path' = predictPath path := congrArg (predictAll bpredInit) (kept_settles settles)

theorem predictPath_fetched (path : List Node) {x : Node} (waits : x.ready = false) :
    predictPath (path ++ [x]) = (bpredPredict (predictPath path) x.ir.pc x.ir.raw).2 := by
  have outstanding : x.recovered = false := by
    unfold Node.recovered
    rw [waits, Bool.false_and]
  unfold predictPath kept predictAll
  rw [List.filter_append, List.filter_cons_of_pos (by simp [outstanding]), List.filter_nil, List.map_append, List.foldl_append]
  rfl

/-! ## Standing on a stack -/

namespace BranchPredictor

variable {base bp : BranchPredictor}

/-- If as many entries are left as `base` had, its newest one is where it was. -/
def PlacedOver (base bp : BranchPredictor) : Prop :=
  base.rasCount ≤ bp.rasCount → under rasSize bp.rasTop (bp.rasCount - base.rasCount) = base.rasTop

/-- The entries of `base` are all there, and `bp` grows above them. -/
structure StandsOn (base bp : BranchPredictor) : Prop where
  placed : base.PlacedOver bp
  entries : stacked rasSize bp.ras base.rasTop base.rasCount = base.returnStack

theorem PlacedOver.refl (bp : BranchPredictor) : bp.PlacedOver bp := fun _ => by rw [Nat.sub_self, under]

theorem StandsOn.refl (bp : BranchPredictor) : bp.StandsOn bp := ⟨.refl bp, rfl⟩

theorem StandsOn.pop (stands : base.StandsOn bp) (filled : 0 < bp.rasCount) : base.StandsOn bp.rasPop where
  placed less := by
    have count : bp.rasCount - base.rasCount = bp.rasCount - 1 - base.rasCount + 1 := by
      have left : base.rasCount ≤ bp.rasCount - 1 := less
      omega
    have place := stands.placed (Nat.le_trans less (Nat.sub_le _ _))
    rw [count] at place
    exact place
  entries := stands.entries

/-- A call above the entries leaves them alone. -/
theorem StandsOn.push (stands : base.StandsOn bp) (bounded : bp.RasBounded) (above : base.rasCount ≤ bp.rasCount)
    (room : bp.rasCount < rasSize) (pc : Word) : base.StandsOn (bp.rasPush pc) := by
  have count : (bp.rasPush pc).rasCount = bp.rasCount + 1 := if_pos room
  have place := stands.placed above
  constructor
  · intro _
    rw [count, Nat.sub_add_comm above]
    exact (under_next bounded.top _).trans place
  · rw [← stands.entries, ← place]
    exact stacked_push_above bounded.top (by omega) (pc + 4)

theorem StandsOn.predict (stands : base.StandsOn bp) (bounded : bp.RasBounded) (pc : Word) {raw : Raw}
    (nested : isCall raw = true → base.rasCount ≤ bp.rasCount ∧ bp.rasCount < rasSize) :
    base.StandsOn (bpredPredict bp pc raw).2 := by
  rw [bpredPredict_after]
  split
  · split
    · next filled => exact stands.pop filled
    · exact stands
  split
  · next call => exact stands.push bounded (nested call).1 (nested call).2 pc
  · exact stands

/-- A recovery at an instruction that was fetched above the entries. -/
theorem StandsOn.restore (stands : base.StandsOn bp) {met : BranchPredictor} (placed : base.PlacedOver met) :
    base.StandsOn { bp with rasTop := met.rasTop, rasCount := met.rasCount } :=
  ⟨placed, stands.entries⟩

end BranchPredictor

/-! ## The stack and the fetched path -/

namespace BranchPredictor

variable {nested : Prop} {bp bp' : BranchPredictor} {path : List Node}

/-- The stack stands where the path leaves it, and unless entries were lost it holds what the path leaves there. -/
structure Mirrors (nested : Prop) (bp : BranchPredictor) (path : List Node) : Prop where
  bounded : bp.RasBounded
  top : bp.rasTop = (predictPath path).rasTop
  count : bp.rasCount = (predictPath path).rasCount
  stack : nested → bp.returnStack = (predictPath path).returnStack

theorem Mirrors.mono {nested' : Prop} (mirrors : bp.Mirrors nested path) (less : nested' → nested) : bp.Mirrors nested' path :=
  ⟨mirrors.bounded, mirrors.top, mirrors.count, fun holds => mirrors.stack (less holds)⟩

/-- Where a prediction leaves the stack depends on where it stood. -/
theorem predict_position (top : bp.rasTop = bp'.rasTop) (count : bp.rasCount = bp'.rasCount) (pc : Word) (raw : Raw) :
    (bpredPredict bp pc raw).2.rasTop = (bpredPredict bp' pc raw).2.rasTop ∧
      (bpredPredict bp pc raw).2.rasCount = (bpredPredict bp' pc raw).2.rasCount := by
  rw [bpredPredict_after, bpredPredict_after, count]
  split
  · split
    · simp [rasPop, top, count]
    · exact ⟨top, count⟩
  split
  · simp [rasPush, top, count]
  · exact ⟨top, count⟩

theorem predictPath_bounded (path : List Node) : (predictPath path).RasBounded := (predictAll_stack bpredInit_bounded _).1

theorem Mirrors.predict (mirrors : bp.Mirrors nested path) {x : Node} (waits : x.ready = false) :
    (bpredPredict bp x.ir.pc x.ir.raw).2.Mirrors nested (path ++ [x]) := by
  obtain ⟨top, count⟩ := predict_position mirrors.top mirrors.count x.ir.pc x.ir.raw
  obtain ⟨bounded, stack⟩ := bpredPredict_stack mirrors.bounded x.ir.pc x.ir.raw
  rw [← predictPath_fetched path waits] at top count
  refine ⟨bounded, top, count, fun holds => ?_⟩
  rw [stack, mirrors.stack holds, predictPath_fetched path waits, (bpredPredict_stack (predictPath_bounded path) _ _).2]

theorem Mirrors.congr (mirrors : bp.Mirrors nested path) (ras : bp'.ras = bp.ras) (top : bp'.rasTop = bp.rasTop)
    (count : bp'.rasCount = bp.rasCount) : bp'.Mirrors nested path := by
  have stack : bp'.returnStack = bp.returnStack := by
    unfold returnStack
    rw [ras, top, count]
  refine ⟨⟨top ▸ mirrors.bounded.top, count ▸ mirrors.bounded.count⟩, top.trans mirrors.top, count.trans mirrors.count, ?_⟩
  rw [stack]
  exact mirrors.stack

end BranchPredictor

/-! ## What the fetched instructions met -/

/-- The predictor that an instruction met, and whether a call has since gone below the entries it found, or found no room
above them. -/
structure Met where
  bpred : BranchPredictor
  overwritten : Bool

/-- What a fetched instruction does to the entries that an older one has met. -/
def Met.touch (bp : BranchPredictor) (raw : Raw) (h : Met) : Met :=
  { h with overwritten := h.overwritten ||
      (isCall raw && (decide (bp.rasCount < h.bpred.rasCount) || decide (bp.rasCount = rasSize))) }

/-- An instruction meets the predictor. -/
def meet (bp : BranchPredictor) (raw : Raw) (met : List Met) : List Met :=
  (met ++ [Met.mk bp false]).map (Met.touch bp raw)

/-- Instructions meet the predictor one after another. -/
def meetAll (bp : BranchPredictor) (fetched : List Node) (met : List Met) : List Met :=
  (fetched.foldl (fun (bp, met) x => ((bpredPredict bp x.ir.pc x.ir.raw).2, meet bp x.ir.raw met)) (bp, met)).2

/-- A waiting instruction carries where the stack stood when it was fetched. -/
def Node.Snapped (x : Node) (met : Met) : Prop :=
  x.ready = false → controlOpcode x.ir.raw = true →
    x.ir.rasTopSnap = met.bpred.rasTop ∧ x.ir.rasCntSnap = met.bpred.rasCount

/-- The instruction neither pushes nor pops. -/
def Node.Level (x : Node) : Prop := isCall x.ir.raw = false ∧ isRet x.ir.raw = false

/-- The predictor now, and the one that each instruction of the path met. -/
structure RasHistory (nested : Prop) (bp : BranchPredictor) (path : List Node) (met : List Met) : Prop where
  snapped : List.Forall₂ Node.Snapped path met
  before : ∀ (i : Nat) (h : Met), met[i]? = some h → h.bpred.Mirrors nested (path.take i)
  stands : ∀ h ∈ met, h.overwritten = false → h.bpred.StandsOn bp
  placed : met.Pairwise fun h later => h.overwritten = false → h.bpred.PlacedOver later.bpred
  level : nested → ∀ x ∈ path, x.recovered = true → x.Level
  now : bp.Mirrors nested path

namespace RasHistory

variable {nested nested' : Prop} {bp bp' : BranchPredictor} {path path' older : List Node} {met : List Met}

theorem mono (faithful : RasHistory nested bp path met) (less : nested' → nested) : RasHistory nested' bp path met :=
  ⟨faithful.snapped, fun i h found => (faithful.before i h found).mono less, faithful.stands, faithful.placed,
    fun holds => faithful.level (less holds), faithful.now.mono less⟩

theorem init (nested : Prop) : RasHistory nested bpredInit [] [] :=
  ⟨.nil, nofun, fun _ none => absurd none List.not_mem_nil, .nil, fun _ _ none => absurd none List.not_mem_nil,
    bpredInit_bounded, rfl, rfl, fun _ => rfl⟩

theorem snapped_settles (snapped : List.Forall₂ Node.Snapped path met) (settles : List.Forall₂ Node.Settles path path') :
    List.Forall₂ Node.Snapped path' met := by
  induction settles generalizing met with
  | nil => exact snapped
  | cons head tail ih =>
      cases snapped with
      | cons first rest =>
          refine .cons (fun waits control => ?_) (ih rest)
          obtain ⟨waited, top, count⟩ := head.waits waits control
          rw [head.raw] at control
          rw [top, count]
          exact first waited control

theorem level_settles (level : ∀ x ∈ path, x.recovered = true → x.Level)
    (settles : List.Forall₂ Node.Settles path path') : ∀ y ∈ path', y.recovered = true → y.Level := by
  induction settles with
  | nil => exact level
  | cons head tail ih =>
      intro y member recovered
      rcases List.mem_cons.mp member with rfl | later
      · unfold Node.Level
        rw [head.raw]
        exact level _ List.mem_cons_self (head.recovered.symm.trans recovered)
      · exact ih (fun x inside => level x (List.mem_cons_of_mem _ inside)) y later recovered

/-- The instructions settle, and the array of the predictor stays. -/
theorem settles (faithful : RasHistory nested bp path met) (settles : List.Forall₂ Node.Settles path path')
    (ras : bp'.ras = bp.ras) (top : bp'.rasTop = bp.rasTop) (count : bp'.rasCount = bp.rasCount) :
    RasHistory nested bp' path' met where
  snapped := snapped_settles faithful.snapped settles
  before i h found := by
    have mirrors := faithful.before i h found
    have same := predictPath_settles (List.forall₂_take i settles)
    exact ⟨mirrors.bounded, mirrors.top.trans (same ▸ rfl), mirrors.count.trans (same ▸ rfl), same ▸ mirrors.stack⟩
  stands h member kept := by
    obtain ⟨placed, entries⟩ := faithful.stands h member kept
    unfold PlacedOver at placed
    refine ⟨?_, ras ▸ entries⟩
    unfold PlacedOver
    rw [top, count]
    exact placed
  placed := faithful.placed
  level holds := level_settles (faithful.level holds) settles
  now := by
    have same := predictPath_settles settles
    have now := faithful.now.congr ras top count
    exact ⟨now.bounded, now.top.trans (same ▸ rfl), now.count.trans (same ▸ rfl), same ▸ now.stack⟩

/-- An instruction is fetched. -/
theorem fetch (faithful : RasHistory nested bp path met) {x : Node} (snapped : x.Snapped ⟨bp, false⟩)
    (waits : x.ready = false) :
    RasHistory nested (bpredPredict bp x.ir.pc x.ir.raw).2 (path ++ [x]) (meet bp x.ir.raw met) where
  snapped := by
    unfold meet
    rw [List.forall₂_map_right_iff]
    exact List.rel_append faithful.snapped (.cons snapped .nil)
  before i h found := by
    have length := faithful.snapped.length_eq
    unfold meet at found
    rw [List.getElem?_map] at found
    obtain ⟨h', known, rfl⟩ := Option.map_eq_some_iff.mp found
    rcases Nat.lt_trichotomy i met.length with older | rfl | newer
    · rw [List.getElem?_append_left older] at known
      rw [List.take_append_of_le_length (by omega)]
      exact faithful.before i h' known
    · rw [List.getElem?_concat_length] at known
      cases known
      rw [← length, List.take_left]
      exact faithful.now
    · rw [List.getElem?_eq_none (by rw [List.length_append, List.length_singleton]; omega)] at known
      cases known
  stands h member kept := by
    obtain ⟨h, found, rfl⟩ := List.mem_map.mp member
    obtain ⟨before, still⟩ := Bool.or_eq_false_iff.mp kept
    have stood : h.bpred.StandsOn bp := by
      rcases List.mem_append.mp found with older | self
      · exact faithful.stands h older before
      · cases List.mem_singleton.mp self
        exact .refl bp
    refine stood.predict faithful.now.bounded x.ir.pc fun call => ?_
    rw [call, Bool.true_and, Bool.or_eq_false_iff, decide_eq_false_iff_not, decide_eq_false_iff_not] at still
    exact ⟨Nat.not_lt.mp still.1, Nat.lt_of_le_of_ne faithful.now.bounded.count still.2⟩
  placed := by
    unfold meet
    rw [List.pairwise_map]
    refine List.Pairwise.imp (fun holds kept => holds (Bool.or_eq_false_iff.mp kept).1) (List.pairwise_append.mpr
      ⟨faithful.placed, List.pairwise_singleton _ _, fun h member later self kept => ?_⟩)
    cases List.mem_singleton.mp self
    exact (faithful.stands h member kept).placed
  level holds y member recovered := by
    rcases List.mem_append.mp member with older | self
    · exact faithful.level holds y older recovered
    · cases List.mem_singleton.mp self
      unfold Node.recovered at recovered
      rw [waits, Bool.false_and] at recovered
      cases recovered
  now := faithful.now.predict waits

end RasHistory

/-! ## Recorded runs -/

/-- A run of the engine with what each instruction of the fetched path met. `nested` says that every recovery was made at
an instruction that neither calls nor returns and whose entries no call on the wrong path wrote over. -/
structure Recording (σ : Type) where
  engine : Engine σ Predictors
  met : List Met
  nested : Bool

namespace Recording

variable {σ : Type}

/-- The instruction in slot `s` neither calls nor returns, and since its fetch no call was fetched below the entries it
found, or without room above them. -/
def nests (r : Recording σ) (s : Fin 2) : Bool :=
  !isCall (r.engine.ooo.slotEntry .int s).ir.raw && !isRet (r.engine.ooo.slotEntry .int s).ir.raw &&
    (r.met[(r.engine.olderPath s).length]?).all fun h => !h.overwritten

variable (vm : VMem σ) (cfg : OooConfig Predictors)

def next (n : Nat) (r : Recording σ) : Option (Recording σ) :=
  ((phaseAt n).step vm cfg r.engine).map fun e' =>
    match phaseAt n with
    | .fetch => ⟨e', meetAll r.engine.bpred.bpred (e'.fetchedPath.drop r.engine.fetchedPath.length) r.met, r.nested⟩
    | .slot .int s =>
        let recovers := e'.stats.mispredFlushes != r.engine.stats.mispredFlushes
        ⟨e', r.met.take e'.fetchedPath.length, r.nested && (!recovers || r.nests s)⟩
    | _ => ⟨e', r.met, r.nested⟩

/-- `m` phases from reset. -/
def run : Nat → Engine σ Predictors → Option (Recording σ)
  | 0, start => some ⟨start, [], true⟩
  | m + 1, start => (run m start).bind (next vm cfg m)

variable {vm cfg} {r r' : Recording σ} {n m : Nat}

def Faithful (r : Recording σ) : Prop :=
  RasHistory (r.nested = true) r.engine.bpred.bpred r.engine.fetchedPath r.met

/-! ### One phase -/

section Phases

variable {e e' : Engine σ Predictors} {nested : Prop} {met : List Met}

end Phases

section Runs

variable {cpu : CPUState} {world : World σ} {bpred : Predictors}

end Runs

end Recording

section Recovery

variable {σ : Type} {vm : VMem σ} {cfg : OooConfig Predictors} {cpu : CPUState} {world : World σ} {bpred : Predictors}
  {m : Nat} {e e' : Engine σ Predictors}

end Recovery

end Sustemu
