import Sustemu.Ooo.Stages

/-!
# Runs of the engine

The front end and the whole cycle as steps, and the rule by which an invariant
of the steps becomes an invariant of every run.
-/

set_option autoImplicit false

namespace Sustemu

open Lib Relation

namespace Engine

variable {σ β : Type} {vm : VMem σ} {cfg : OooConfig β} {e e' : Engine σ β}

/-! ## Rename -/

variable (vm cfg) in
theorem renameSlot_step {n : Fin 2} {used : Nat} (valid : (e.ooo.latchIdRn n).valid = true)
    (inOrder : n = 1 → (e.ooo.latchIdRn 0).valid = false)
    (goes : renameStall e.ooo n (e.ooo.latchIdRn n).ir used = none) (done : e.renameSlot n = some e') :
    e.FrontStep vm cfg e' ∧ (e'.ooo.latchIdRn n).valid = false := by
  unfold renameStall at goes
  split at goes
  · cases goes
  next alone =>
  split at goes
  · cases goes
  next room =>
  split at goes
  · cases goes
  split at goes
  · cases goes
  next names =>
  obtain ⟨o, renamed, same⟩ := Option.map_eq_some_iff.mp done
  obtain ⟨slot, renames⟩ := OOOState.renames_of_renameInst renamed
  rw [renames.latchIdRn] at same
  rw [← same]
  refine ⟨.rename valid inOrder ?_ (Nat.lt_of_not_le room) ?_ renames, ?_⟩
  · intro serializing
    by_contra busy
    apply alone
    refine ⟨serializing, ?_⟩
    by_cases empty : e.ooo.robCount = 0
    · exact .inr (Fin.pos_iff_ne_zero.mpr fun first => busy ⟨empty, first⟩)
    · exact .inl (Nat.pos_of_ne_zero empty)
  · intro named empty
    exact names ⟨named, empty⟩
  · simp

variable (vm cfg) in
theorem renameLoop_steps {used : Nat} (done : renameLoop [0, 1] used e = some e') :
    ReflTransGen (FrontStep vm cfg) e e' := by
  unfold renameLoop at done
  split at done
  · cases done
    exact .refl
  next valid =>
  split at done
  · cases done
    exact .single .note
  next goes =>
  obtain ⟨e₁, first, rest⟩ := Option.bind_eq_some_iff.mp done
  obtain ⟨step, consumed⟩ := renameSlot_step vm cfg (by simpa using valid)
    (fun absurdity => absurd absurdity (by decide)) goes first
  refine (ReflTransGen.single step).trans ?_
  unfold renameLoop at rest
  split at rest
  · cases rest
    exact .refl
  next valid₁ =>
  split at rest
  · cases rest
    exact .single .note
  next goes₁ =>
  obtain ⟨e₂, second, last⟩ := Option.bind_eq_some_iff.mp rest
  cases last
  exact .single (renameSlot_step vm cfg (by simpa using valid₁) (fun _ => consumed) goes₁ second).1

variable (vm cfg) in
theorem stageRn_steps (tidy : e.ooo.Tidy) (done : e.stageRn = some e') :
    ReflTransGen (FrontStep vm cfg) e e' ∧ e'.ooo.Tidy := by
  unfold stageRn at done
  split at done
  · cases done
    exact ⟨.refl, tidy⟩
  · obtain ⟨e₁, renamed, same⟩ := Option.map_eq_some_iff.mp done
    have steps := renameLoop_steps vm cfg renamed
    rw [← same]
    cases shift : !(e₁.ooo.latchIdRn 0).valid && (e₁.ooo.latchIdRn 1).valid with
    | true =>
        obtain ⟨consumed, left⟩ := Bool.and_eq_true_iff.mp shift
        have shifted : compact e₁.ooo = { e₁.ooo with
            latchIdRn := fun s => if s = 0 then e₁.ooo.latchIdRn 1 else { e₁.ooo.latchIdRn 1 with valid := false } } := by
          unfold compact
          rw [shift]
          rfl
        rw [shifted]
        exact ⟨steps.tail (.compact (by simpa using consumed) left), fun absurdity => nomatch absurdity⟩
    | false =>
        have unchanged : compact e₁.ooo = e₁.ooo := by
          unfold compact
          rw [shift]
          rfl
        rw [unchanged]
        refine ⟨steps, ?_⟩
        intro second
        rw [second, Bool.and_true] at shift
        simpa using shift

/-! ## Decode and fetch -/

variable (vm cfg) in
theorem stageId_steps (ok : e.ooo.Ok) (tidy : e.ooo.Tidy) :
    ReflTransGen (FrontStep vm cfg) e e.stageId ∧ e.stageId.ooo.Tidy := by
  unfold stageId
  simp only
  split
  · exact ⟨.refl, tidy⟩
  · next moves =>
      simp only [Bool.or_eq_true, Bool.not_eq_true', not_or, Bool.not_eq_false, Bool.not_eq_true] at moves
      refine ⟨.single (.decode moves.1 (Fin.forall_fin_two.mpr ⟨moves.2, ?_⟩)), ok.inOrder⟩
      cases left : (e.ooo.latchIdRn 1).valid with
      | false => rfl
      | true =>
          rw [tidy left] at moves
          cases moves.2

theorem fetchSlot_step {s : Fin 2} {goesOn : Bool} (inOrder : ∀ t, (e.ooo.latchIfId t).valid = decide (t < s))
    (done : e.fetchSlot vm cfg s = some (e', goesOn)) :
    e.FrontStep vm cfg e' ∧ e'.ooo.latchIdRn = e.ooo.latchIdRn ∧
      (goesOn = true → ∀ t, (e'.ooo.latchIfId t).valid = decide (t ≤ s)) := by
  have filled : ∀ (reg : PipeReg), reg.valid = true → ∀ t,
      (setAt e.ooo.latchIfId s reg t).valid = decide (t ≤ s) := by
    intro reg valid t
    by_cases here : t = s
    · rw [here, setAt_self, valid]
      simp
    · rw [setAt_of_ne here, inOrder]
      simp [Fin.lt_iff_le_and_ne, here]
  unfold fetchSlot at done
  simp only at done
  split at done
  · next unmapped =>
      cases done
      exact ⟨.skip (by simpa using unmapped), rfl, nofun⟩
  · next mapped =>
      have mapped : inDram (truncPc e.ooo.fetchPc) = true := by simpa using mapped
      obtain ⟨⟨word, world⟩, read, same⟩ := Option.map_eq_some_iff.mp done
      simp only at same
      split at same
      · next asked =>
          split at same
          · next redirect =>
              cases same
              obtain ⟨taken, hit⟩ := Bool.and_eq_true_iff.mp redirect
              have control : controlOpcode (word.setWidth 32) = true := (Bool.and_eq_true_iff.mp asked).2
              exact ⟨.fetch inOrder mapped read (.inr ⟨_, control, taken, hit, rfl⟩), rfl, nofun⟩
          · next straight =>
              cases same
              exact ⟨.fetch inOrder mapped read (.inl rfl), rfl, fun _ => filled _ rfl⟩
      · cases same
        exact ⟨.fetch inOrder mapped read (.inl rfl), rfl, fun _ => filled _ rfl⟩

theorem stageIf_steps (ok : e.ooo.Ok) (done : e.stageIf vm cfg = some e') :
    ReflTransGen (FrontStep vm cfg) e e' ∧ e'.ooo.latchIdRn = e.ooo.latchIdRn := by
  unfold stageIf at done
  split at done
  · cases done
    exact ⟨.refl, rfl⟩
  · next empty =>
      have empty : (e.ooo.latchIfId 0).valid = false := by simpa using empty
      have second : (e.ooo.latchIfId 1).valid = false := by
        cases left : (e.ooo.latchIfId 1).valid with
        | false => rfl
        | true =>
            rw [ok.inOrder left] at empty
            cases empty
      simp only [fetchLoop, Option.bind_eq_bind, Option.bind_eq_some_iff] at done
      obtain ⟨⟨e₁, more⟩, first, rest⟩ := done
      obtain ⟨step, kept, filled⟩ := fetchSlot_step (s := 0) (Fin.forall_fin_two.mpr ⟨empty, second⟩) first
      split at rest
      · next goesOn =>
          obtain ⟨⟨e₂, _⟩, again, last⟩ := Option.bind_eq_some_iff.mp rest
          have filled := filled goesOn
          obtain ⟨step₂, kept₂, _⟩ := fetchSlot_step (s := 1) (Fin.forall_fin_two.mpr ⟨filled 0, filled 1⟩) again
          have same : e₂ = e' := by
            split at last
            · exact Option.some.inj last
            · exact Option.some.inj last
          rw [← same]
          exact ⟨.tail (.single step) step₂, kept₂.trans kept⟩
      · cases rest
        exact ⟨.single step, kept⟩

/-! ## Cycles -/

theorem frontSteps_ok (steps : ReflTransGen (FrontStep vm cfg) e e') (ok : e.ooo.Ok) : e'.ooo.Ok := by
  induction steps with
  | refl => exact ok
  | tail _ step ih => exact step.ok ih

/-- The parts of a cycle: the steps of the back end and the three stages of the front end. -/
theorem cycle_parts (ok : e.ooo.Ok) (done : e.cycle vm cfg = some e') :
    ∃ middle e₁ e₂, ReflTransGen (BackStep vm cfg) e middle ∧ middle.stageRn = some e₁ ∧
      e₁.stageId.stageIf vm cfg = some e₂ ∧ e' = e₂.tick := by
  simp only [cycle, Option.bind_eq_bind, Option.bind_eq_some_iff] at done
  obtain ⟨e₁, drained, e₂, committed, e₃, int, e₄, mul, e₅, lsu, e₆, renamed, e₇, fetched, last⟩ := done
  have steps₂ := (drainStoreBuf_steps drained).trans (stageCommit_steps committed)
  have stepsT := steps₂.tail (mshrTick_step e₂)
  have steps₃ := stepsT.trans (unit_steps (fun _ _ _ ok => intSlot_steps ok) (backSteps_ok stepsT ok) int)
  have steps₄ := steps₃.trans (unit_steps (fun _ _ _ ok => mulSlot_steps ok) (backSteps_ok steps₃ ok) mul)
  have steps₅ := steps₄.trans (unit_steps (fun _ _ _ ok => lsuSlot_steps ok) (backSteps_ok steps₄ ok) lsu)
  exact ⟨_, e₆, e₇, steps₅.trans (stageIs_steps e₅), renamed, fetched, (Option.some.inj last).symm⟩

/-- One cycle: back-end steps, then front-end steps. -/
theorem cycle_steps (ok : e.ooo.Ok) (tidy : e.ooo.Tidy) (done : e.cycle vm cfg = some e') :
    ∃ middle, ReflTransGen (BackStep vm cfg) e middle ∧ ReflTransGen (FrontStep vm cfg) middle e' ∧ e'.ooo.Tidy := by
  obtain ⟨middle, e₁, e₂, back, renamed, fetched, rfl⟩ := cycle_parts ok done
  obtain ⟨front, tidyRn⟩ := stageRn_steps vm cfg (backSteps_tidy back tidy) renamed
  have okRn := frontSteps_ok front (backSteps_ok back ok)
  obtain ⟨decoded, tidyId⟩ := stageId_steps vm cfg okRn tidyRn
  obtain ⟨fetchedSteps, kept⟩ := stageIf_steps (frontSteps_ok decoded okRn) fetched
  refine ⟨_, back, ((front.trans decoded).trans fetchedSteps).tail .tick, ?_⟩
  unfold OOOState.Tidy at tidyId ⊢
  rw [show e₂.tick.ooo = e₂.ooo from rfl, kept]
  exact tidyId

/-! ## The log -/

theorem BackStep.log_extends (step : e.BackStep vm cfg e') : ∃ extra, e'.log = e.log ++ extra := by
  cases step with
  | note quiet => exact ⟨_, rfl⟩
  | drain waiting written => exact ⟨_, rfl⟩
  | commit live ready ordered sound room stored checked =>
      obtain ⟨extra, log, _⟩ := (commits_of_checked stored checked).log
      exact ⟨_, log⟩
  | fill addressed device mapped read completes => exact ⟨_, rfl⟩
  | timer | exec | redirect | count | discard | address | storeDone | delay | probe | miss | loadFault | issue =>
      exact ⟨[], (List.append_nil _).symm⟩

theorem FrontStep.log_extends (step : e.FrontStep vm cfg e') : ∃ extra, e'.log = e.log ++ extra := by
  cases step with
  | rename valid inOrder alone room names renames => exact ⟨_, rfl⟩
  | note | compact | decode | fetch | skip | tick => exact ⟨[], (List.append_nil _).symm⟩

/-! ## The initial state -/

theorem oooInit_conserved (cpu : CPUState) :
    ((oooInit cpu).freeRegs ++ ((List.finRange 32).map (oooInit cpu).rrat ++ (oooInit cpu).inFlight)).Perm
      (List.finRange 64) := by
  have free : (oooInit cpu).freeRegs = (window (0 : Fin 64) 32).map fun i => if i.val < 32 then i + 32 else 0 := rfl
  have committed : (oooInit cpu).rrat = fun a => Fin.castLE (by decide) a := rfl
  have none : (oooInit cpu).inFlight = [] := rfl
  rw [free, committed, none]
  decide +kernel

theorem oooInit_ok (cpu : CPUState) : (oooInit cpu).Ok := by
  have empty : ∀ i, ((oooInit cpu).rob i).valid = false := fun _ => rfl
  have noStation : ∀ k, ((oooInit cpu).rs k).valid = false := fun _ => rfl
  have noLatch : ∀ eu s, ((oooInit cpu).latch eu s).valid = false := fun _ _ => rfl
  have nowhere : ∀ place i, (oooInit cpu).occupant place ≠ some i := by
    intro place i
    cases place with
    | station k => exact nofun
    | slot eu s => exact nofun
  refine ⟨⟨⟨Nat.zero_le _, rfl, ?_, ?_, ?_, ?_, rfl, rfl, oooInit_conserved cpu, rfl⟩, ⟨fun _ _ => rfl, ?_⟩, ?_⟩,
    ?_, nofun, nofun, nofun, ?_, ?_⟩
  · exact fun i => ⟨nofun, nofun⟩
  · exact nofun
  · exact nofun
  · exact nofun
  · exact nofun
  · exact ⟨fun place i here => absurd here (nowhere place i), fun place _ i here => absurd here (nowhere place i),
      nofun, nofun, nofun, nofun, fun _ => rfl, fun _ _ => rfl⟩
  · exact nofun
  · exact fun s _ live => nomatch live.valid
  · exact fun s live => nomatch live.valid

theorem oooInit_tidy (cpu : CPUState) : (oooInit cpu).Tidy := fun valid => absurd valid Bool.false_ne_true

/-! ## Invariants of runs -/

section Keeps

variable {P : Engine σ β → Prop}

theorem backSteps_keep (back : ∀ e e', e.ooo.Ok → P e → e.BackStep vm cfg e' → P e')
    (steps : ReflTransGen (BackStep vm cfg) e e') (ok : e.ooo.Ok) (holds : P e) : P e' := by
  induction steps with
  | refl => exact holds
  | tail before step ih => exact back _ _ (backSteps_ok before ok) ih step

theorem frontSteps_keep (front : ∀ e e', e.ooo.Ok → P e → e.FrontStep vm cfg e' → P e')
    (steps : ReflTransGen (FrontStep vm cfg) e e') (ok : e.ooo.Ok) (holds : P e) : P e' := by
  induction steps with
  | refl => exact holds
  | tail before step ih => exact front _ _ (frontSteps_ok before ok) ih step

/-- A property that both ends keep holds after a cycle. -/
theorem cycle_keeps (back : ∀ e e', e.ooo.Ok → P e → e.BackStep vm cfg e' → P e')
    (front : ∀ e e', e.ooo.Ok → P e → e.FrontStep vm cfg e' → P e')
    (ok : e.ooo.Ok) (tidy : e.ooo.Tidy) (holds : P e) (done : e.cycle vm cfg = some e') :
    e'.ooo.Ok ∧ e'.ooo.Tidy ∧ P e' := by
  obtain ⟨middle, backSteps, frontSteps, tidy'⟩ := cycle_steps ok tidy done
  have okMiddle := backSteps_ok backSteps ok
  have holdsMiddle := backSteps_keep back backSteps ok holds
  exact ⟨frontSteps_ok frontSteps okMiddle, tidy', frontSteps_keep front frontSteps okMiddle holdsMiddle⟩

/-- A property that both ends keep holds along every run. -/
theorem run_keeps (back : ∀ e e', e.ooo.Ok → P e → e.BackStep vm cfg e' → P e')
    (front : ∀ e e', e.ooo.Ok → P e → e.FrontStep vm cfg e' → P e') {k : Nat}
    (ok : e.ooo.Ok) (tidy : e.ooo.Tidy) (holds : P e) (done : run vm cfg k e = some e') :
    e'.ooo.Ok ∧ e'.ooo.Tidy ∧ P e' := by
  induction k generalizing e with
  | zero =>
      cases done
      exact ⟨ok, tidy, holds⟩
  | succ k ih =>
      obtain ⟨e₁, first, rest⟩ := Option.bind_eq_some_iff.mp done
      obtain ⟨ok₁, tidy₁, holds₁⟩ := cycle_keeps back front ok tidy holds first
      exact ih ok₁ tidy₁ holds₁ rest

end Keeps

/-- Every state of a run satisfies the invariant. -/
theorem run_ok {cpu : CPUState} {world : World σ} {bpred : β} {k : Nat}
    (done : run vm cfg k (Engine.init cfg cpu world bpred) = some e) : e.ooo.Ok :=
  (run_keeps (P := fun _ => True) (fun _ _ _ _ _ => trivial) (fun _ _ _ _ _ => trivial) (oooInit_ok cpu)
    (oooInit_tidy cpu) trivial done).1

end Engine

/-! ## A small machine -/

/-- A memory image that holds instruction words from the reset address on. -/
def image (words : List Raw) : ByteMem := fun addr =>
  match words[(addr - mbase.toNat) / 4]? with
  | some word => if mbase.toNat ≤ addr then word.extractLsb' (8 * ((addr - mbase.toNat) % 4)) 8 else 0
  | none => 0

/-- A predictor that is switched off. -/
def BPred.off : BPred Unit where
  enabled := false
  init := id
  predict := fun state _ _ => (⟨false, 0, false⟩, state)
  update := fun state _ => state
  rasTop := fun _ => 0
  rasCount := fun _ => 0
  rasRestore := fun state _ _ => state

/-- One core, no prediction, no differential testing. -/
def OooConfig.solo : OooConfig Unit where
  numCores := 1
  difftestEn := false
  traceEn := false
  logging := false
  bpred := .off
  stackIr := .zero

/-- Memory without devices. -/
def MemConfig.plain (numCores : Nat) : MemConfig Unit := ⟨numCores, Sustemu.prefetchHint, Devices.none⟩

/-- The engine at reset with a program at the reset address and all registers zero. -/
def boot (words : List Raw) : Engine (MemState Unit) Unit :=
  Engine.init .solo ⟨.empty, mbase⟩ ⟨Sys.init, MemState.init (image words) ()⟩ ()

/-- Cycles of that machine. -/
def bootRun (words : List Raw) (k : Nat) : Option (Engine (MemState Unit) Unit) :=
  Engine.run (hierarchy (.plain 1)) .solo k (boot words)

end Sustemu
