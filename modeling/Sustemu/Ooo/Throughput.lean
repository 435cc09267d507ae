import Sustemu.Lib.Potential
import Sustemu.Ooo.CommitLog
import Sustemu.Ooo.Progress

/-!
# Throughput of the out-of-order engine

A cycle that commits nothing brings the engine closer to the next commit unless
the LSU is jammed. So the engine commits at a steady rate in the cycles in
which it is not jammed, whatever the program, the predictor and the memory do,
and it stops committing only if it is jammed for good.
-/

set_option autoImplicit false

namespace Sustemu

open Lib Relation

namespace Engine

variable {σ β : Type} {vm : VMem σ} {cfg : OooConfig β} {e e' : Engine σ β}

/-- How many instructions have committed. -/
def committedCount (e : Engine σ β) : Nat := (commits e.log).length

theorem Step.committedCount_le (step : Step vm cfg e e') : e.committedCount ≤ e'.committedCount := by
  have extends_log : ∃ extra, e'.log = e.log ++ extra := by
    rcases step with back | front
    · exact back.log_extends
    · exact front.log_extends
  obtain ⟨extra, log⟩ := extends_log
  unfold committedCount
  rw [log, commits_append, List.length_append]
  exact Nat.le_add_right _ _

theorem steps_committedCount_le (steps : ReflTransGen (Step vm cfg) e e') : e.committedCount ≤ e'.committedCount := by
  induction steps with
  | refl => exact Nat.le_refl _
  | tail _ step ih => exact ih.trans step.committedCount_le

theorem Commits.committedCount (step : Commits vm e e') : e'.committedCount = e.committedCount + 1 := by
  obtain ⟨extra, log, quiet⟩ := step.log
  unfold Engine.committedCount
  rw [log, List.append_cons, commits_quiet, commits_append, List.length_append]
  · rfl
  · rintro event member entry value rfl
    obtain ⟨_, mismatch⟩ := quiet _ member
    cases mismatch

/-! ## The oldest instruction in a step -/

theorem setLatch_nears {o : OOOState} {eu : EU} {s : Fin 2} {l : OOOLatch} {mshr : MshrIdx → MSHREntry}
    (valid : l.valid = (o.latch eu s).valid) (flushed : l.flushed = (o.latch eu s).flushed)
    (index : l.robIdx = (o.latch eu s).robIdx) : o.Nears (({ o with mshr := mshr } : OOOState).setLatch eu s l) := by
  refine .of_same rfl rfl rfl fun eu' t here => ?_
  have same : (({ o with mshr := mshr } : OOOState).setLatch eu s l).occupant (.slot eu' t) = o.occupant (.slot eu' t) := by
    simp only [OOOState.occupant, OOOState.latch_setLatch]
    split
    · next own =>
        obtain ⟨rfl, rfl⟩ := own
        rw [valid, flushed, index]
    · rfl
  rwa [same]

/-- Only a commit removes the oldest instruction. -/
theorem BackStep.nears (step : e.BackStep vm cfg e') (ok : e.ooo.Ok) (quiet : ¬Commits vm e e') :
    e.ooo.Nears e'.ooo := by
  cases step with
  | note | timer | drain | probe => exact .of_same rfl rfl rfl fun _ _ here => here
  | commit live ready ordered sound room stored checked => exact absurd (commits_of_checked stored checked) quiet
  | exec bpred fault unit live run completes faulted resolved =>
      exact .completes completes rfl (executed_sameInst ok.inv live run).1.raw
  | redirect live run completes control wrong target =>
      have executed : e.ooo.Nears _ := .completes completes rfl (executed_sameInst ok.inv live run).1.raw
      have flushed := executed.trans (.flushes (redirect_flushes ok live run completes).2)
      exact flushed.trans (.of_same rfl rfl rfl fun _ _ here => here)
  | count live => exact setLatch_nears rfl rfl rfl
  | discard mshr valid flushed lines filled =>
      refine .of_same rfl rfl rfl fun eu t here => ?_
      obtain ⟨_, kept, _⟩ := OOOState.slot_of_occupant here
      rw [← here]
      apply OOOState.occupant_slot_congr
      rw [OOOState.latch_dropLatch, if_neg]
      rintro ⟨rfl, rfl⟩
      exact Bool.false_ne_true (kept.symm.trans flushed)
  | address live first executor =>
      have raw := (pure_sameInst (operands e.ooo (e.ooo.latch .lsu _)) executor).1.raw
      exact .of_update rfl rfl rfl id raw fun _ _ here => .inr here
  | storeDone live computed store completes => exact .completes completes rfl rfl
  | delay addressed none => exact setLatch_nears rfl rfl rfl
  | miss addressed cached missed line lines => exact setLatch_nears rfl rfl rfl
  | loadFault addressed outside completes => exact .completes completes rfl rfl
  | fill addressed device mapped read completes => exact .completes completes rfl rfl
  | issue empty chosen => exact OOOState.nears_latchFromRs empty

theorem FrontStep.nears (step : e.FrontStep vm cfg e') (ok : e.ooo.Ok) : e.ooo.Nears e'.ooo := by
  cases step with
  | rename valid inOrder alone room names renames =>
      exact (OOOState.Nears.renames renames ok.inv room).trans (.of_same rfl rfl rfl fun _ _ here => here)
  | _ => exact .of_same rfl rfl rfl fun _ _ here => here

theorem steps_nears (steps : ReflTransGen (Step vm cfg) e e') (ok : e.ooo.Ok)
    (quiet : e'.committedCount = e.committedCount) : e.ooo.Nears e'.ooo := by
  induction steps with
  | refl => exact .refl _
  | @tail b c before step ih =>
      have first := steps_committedCount_le before
      have second := step.committedCount_le
      have okB : b.ooo.Ok := by
        clear ih quiet first second step
        induction before with
        | refl => exact ok
        | tail _ step ih => exact Step.ok step ih
      refine (ih (by omega)).trans ?_
      rcases step with back | front
      · refine back.nears okB fun commits => ?_
        have more := commits.committedCount
        omega
      · exact front.nears okB

/-! ## An empty reorder buffer -/

/-- The front end, beside an empty reorder buffer, is left alone. -/
structure Bare (e e' : Engine σ β) : Prop where
  empty : e'.ooo.robCount = 0
  idRn : e'.ooo.latchIdRn = e.ooo.latchIdRn
  ifId : e'.ooo.latchIfId = e.ooo.latchIfId
  fetchPc : e'.ooo.fetchPc = e.ooo.fetchPc

theorem Bare.trans {e'' : Engine σ β} (first : e.Bare e') (second : e'.Bare e'') : e.Bare e'' :=
  ⟨second.empty, second.idRn.trans first.idRn, second.ifId.trans first.ifId, second.fetchPc.trans first.fetchPc⟩

theorem BackStep.bare (step : e.BackStep vm cfg e') (ok : e.ooo.Ok) (empty : e.ooo.robCount = 0) : e.Bare e' := by
  have nobody : ∀ {eu s}, ¬e.ooo.Live eu s := fun live => ok.inv.dead empty _ (ok.inv.live_entry live).1
  cases step with
  | commit live ready ordered sound room stored checked => exact absurd empty live
  | exec bpred fault unit live run completes faulted resolved => exact absurd live nobody
  | redirect live run completes control wrong target => exact absurd live nobody
  | count live => exact absurd live nobody
  | address live first executor => exact absurd live nobody
  | storeDone live computed store completes => exact absurd live nobody
  | delay addressed none => exact absurd addressed.live nobody
  | miss addressed cached missed line lines => exact absurd addressed.live nobody
  | loadFault addressed outside completes => exact absurd addressed.live nobody
  | fill addressed device mapped read completes => exact absurd addressed.live nobody
  | note | timer | drain | probe | discard | issue => exact ⟨empty, rfl, rfl, rfl⟩

theorem backSteps_bare (steps : ReflTransGen (BackStep vm cfg) e e') (ok : e.ooo.Ok) (empty : e.ooo.robCount = 0) :
    e.Bare e' := by
  induction steps with
  | refl => exact ⟨empty, rfl, rfl, rfl⟩
  | tail before step ih => exact ih.trans (step.bare (backSteps_ok before ok) ih.empty)

/-- With an empty reorder buffer nothing holds up renaming. -/
theorem renameStall_empty {o : OOOState} (ok : o.Ok) (empty : o.robCount = 0) (ir : IRInst) :
    renameStall o 0 ir (rsUsed o) = none := by
  have free : ∀ k, o.rsFreeMask k = true := by
    intro k
    rw [ok.inv.placed.freeMask]
    cases valid : (o.rs k).valid with
    | false => rfl
    | true =>
        have waits := (ok.inv.placed.waiting _ _ (OOOState.occupant_station valid)).1
        exact absurd waits (ok.inv.dead empty _)
  have stations : rsUsed o = 0 := by
    unfold rsUsed
    rw [List.filter_eq_self.mpr fun k _ => free k]
    rfl
  have names : o.freelist.count = 32 := by
    have total := ok.inv.renamed.conserved.length_eq
    have flight : o.inFlight = [] := by
      unfold OOOState.inFlight OOOState.live
      rw [empty]
      rfl
    rw [flight] at total
    simpa [OOOState.freeRegs] using total
  unfold renameStall
  rw [empty, stations, names]
  simp [robSize, rsSize]

/-! ## The front end -/

theorem renameSlot_still {n : Fin 2} (done : e.renameSlot n = some e') :
    e.ooo.Still e'.ooo ∧ e'.ooo.robCount = e.ooo.robCount + 1 := by
  obtain ⟨o, renamed, rfl⟩ := Option.map_eq_some_iff.mp done
  have still := OOOState.renameInst_still renamed
  obtain ⟨_, renames⟩ := OOOState.renames_of_renameInst renamed
  exact ⟨still.trans ⟨⟨rfl, rfl, rfl, rfl⟩, rfl⟩, renames.count⟩

theorem renameLoop_still {slots : List (Fin 2)} {used : Nat} (done : renameLoop slots used e = some e') :
    e.ooo.Still e'.ooo ∧ e.ooo.robCount ≤ e'.ooo.robCount := by
  induction slots generalizing used e with
  | nil =>
      cases done
      exact ⟨.refl _, Nat.le_refl _⟩
  | cons n rest ih =>
      unfold renameLoop at done
      split at done
      · cases done
        exact ⟨.refl _, Nat.le_refl _⟩
      · split at done
        · cases done
          exact ⟨.refl _, Nat.le_refl _⟩
        · obtain ⟨e₁, first, later⟩ := Option.bind_eq_some_iff.mp done
          obtain ⟨still, count⟩ := renameSlot_still first
          obtain ⟨still', more⟩ := ih later
          exact ⟨still.trans still', by omega⟩

theorem compact_still (o : OOOState) : o.Still (compact o) ∧ (compact o).robCount = o.robCount := by
  unfold compact
  split <;> exact ⟨⟨⟨rfl, rfl, rfl, rfl⟩, rfl⟩, rfl⟩

theorem stageRn_still (done : e.stageRn = some e') : e.ooo.Still e'.ooo := by
  unfold stageRn at done
  split at done
  · cases done
    exact .refl _
  · obtain ⟨e₁, renamed, rfl⟩ := Option.map_eq_some_iff.mp done
    exact (renameLoop_still renamed).1.trans (compact_still e₁.ooo).1

theorem stageId_still (e : Engine σ β) : e.ooo.Still e.stageId.ooo := by
  unfold stageId
  dsimp only
  split
  · exact .refl _
  · exact ⟨⟨rfl, rfl, rfl, rfl⟩, rfl⟩

/-- What one turn of the fetch loop does to the back end. -/
theorem fetchSlot_cases {s : Fin 2} {goesOn : Bool} (done : e.fetchSlot vm cfg s = some (e', goesOn)) :
    (inDram (truncPc e.ooo.fetchPc) = false ∧ goesOn = false ∧
      e'.ooo = { e.ooo with fetchPc := truncPc e.ooo.fetchPc + 4 }) ∨
    ∃ ir next, e'.ooo = { e.ooo with latchIfId := setAt e.ooo.latchIfId s ⟨ir, true⟩, fetchPc := next } := by
  unfold fetchSlot at done
  dsimp only at done
  split at done
  · next outside =>
      cases done
      exact .inl ⟨by simpa using outside, rfl, rfl⟩
  · right
    obtain ⟨⟨word, world⟩, _, same⟩ := Option.map_eq_some_iff.mp done
    dsimp only at same
    split at same
    · split at same <;> cases same <;> exact ⟨_, _, rfl⟩
    · cases same
      exact ⟨_, _, rfl⟩

/-- The fetch loop only fills the latches behind it. -/
structure Refills (e e' : Engine σ β) : Prop where
  still : e.ooo.Still e'.ooo
  count : e'.ooo.robCount = e.ooo.robCount
  idRn : e'.ooo.latchIdRn = e.ooo.latchIdRn
  ifId : (e.ooo.latchIfId 0).valid = true → (e'.ooo.latchIfId 0).valid = true

theorem Refills.refl (e : Engine σ β) : e.Refills e := ⟨.refl _, rfl, rfl, id⟩

theorem fetchSlot_refills {s : Fin 2} {goesOn : Bool} (done : e.fetchSlot vm cfg s = some (e', goesOn)) :
    e.Refills e' := by
  rcases fetchSlot_cases done with ⟨_, _, same⟩ | ⟨ir, next, same⟩
  · constructor <;> rw [same]
    · exact ⟨⟨rfl, rfl, rfl, rfl⟩, rfl⟩
    · exact id
  · constructor <;> rw [same]
    · exact ⟨⟨rfl, rfl, rfl, rfl⟩, rfl⟩
    · intro valid
      change (setAt e.ooo.latchIfId s ⟨ir, true⟩ 0).valid = true
      by_cases here : 0 = s
      · rw [here, setAt_self]
      · rwa [setAt_of_ne here]

theorem fetchLoop_refills {slots : List (Fin 2)} (done : fetchLoop vm cfg slots e = some e') : e.Refills e' := by
  induction slots generalizing e with
  | nil =>
      cases done
      exact .refl _
  | cons s rest ih =>
      obtain ⟨⟨e₁, goesOn⟩, first, later⟩ := Option.bind_eq_some_iff.mp done
      have step := fetchSlot_refills first
      dsimp only at later
      split at later
      · have next := ih later
        exact ⟨step.still.trans next.still, next.count.trans step.count, next.idRn.trans step.idRn,
          fun valid => next.ifId (step.ifId valid)⟩
      · cases later
        exact step

theorem stageIf_refills (done : e.stageIf vm cfg = some e') : e.Refills e' := by
  unfold stageIf at done
  split at done
  · cases done
    exact .refl e
  · exact fetchLoop_refills done

/-- An instruction behind an empty reorder buffer is renamed. -/
theorem stageRn_starts (ok : e.ooo.Ok) (empty : e.ooo.robCount = 0) (valid : (e.ooo.latchIdRn 0).valid = true)
    (done : e.stageRn = some e') : e'.ooo.robCount ≠ 0 := by
  unfold stageRn at done
  rw [if_neg (by rw [valid]; exact Bool.false_ne_true)] at done
  obtain ⟨e₂, renamed, rfl⟩ := Option.map_eq_some_iff.mp done
  unfold renameLoop at renamed
  rw [if_neg (by rw [valid]; exact Bool.false_ne_true), renameStall_empty ok empty] at renamed
  obtain ⟨e₁, first, later⟩ := Option.bind_eq_some_iff.mp renamed
  have count := (renameSlot_still first).2
  have more := (renameLoop_still later).2
  change (compact e₂.ooo).robCount ≠ 0
  rw [(compact_still e₂.ooo).2]
  omega

theorem truncPc_toNat (pc : Word) : (truncPc pc).toNat = pc.toNat % 0x100000000 := by
  unfold truncPc
  rw [BitVec.toNat_and, show (0xffffffff : Word).toNat = 2 ^ 32 - 1 from rfl, Nat.and_two_pow_sub_one_eq_mod]

/-- Fetching outside of memory gets to memory. -/
theorem skipRem_skip {pc : Word} (outside : inDram (truncPc pc) = false) :
    OOOState.skipRem (truncPc pc + 4) < OOOState.skipRem pc := by
  have here := truncPc_toNat pc
  have next := truncPc_toNat (truncPc pc + 4)
  rw [BitVec.toNat_add, here, show (4 : Word).toNat = 4 from rfl] at next
  have low : ¬(0x80000000 ≤ (truncPc pc).toNat ∧ (truncPc pc).toNat < 0x88000000) := by
    rw [← inDram_iff, outside]
    exact Bool.false_ne_true
  unfold OOOState.skipRem
  rw [if_neg (c := inDram (truncPc pc) = true) (by rw [outside]; exact Bool.false_ne_true)]
  split
  · omega
  · next outside' =>
      rw [inDram_iff] at outside'
      omega

/-- With an empty reorder buffer, the front end gets closer to renaming. -/
theorem front_falls (ok : e.ooo.Ok) (empty : e.ooo.robCount = 0) {e₁ : Engine σ β} (renamed : e.stageRn = some e₁)
    (fetched : e₁.stageId.stageIf vm cfg = some e') : e'.ooo.robCount ≠ 0 ∨ e'.ooo.frontRem < e.ooo.frontRem := by
  cases ready : (e.ooo.latchIdRn 0).valid with
  | true =>
      left
      have started := stageRn_starts ok empty ready renamed
      have moved : e₁.stageId.ooo.robCount = e₁.ooo.robCount := by
        unfold stageId
        dsimp only
        split <;> rfl
      rw [(stageIf_refills fetched).count, moved]
      exact started
  | false =>
      right
      have nothing : e₁ = e := by
        unfold stageRn at renamed
        rw [if_pos (by rw [ready]; rfl)] at renamed
        exact (Option.some.inj renamed).symm
      subst nothing
      cases waiting : (e₁.ooo.latchIfId 0).valid with
      | true =>
          -- The decoder takes the group over.
          have decoded : (e₁.stageId.ooo.latchIdRn 0).valid = true := by
            unfold stageId
            dsimp only
            rw [if_neg (by rw [ready, waiting]; exact Bool.false_ne_true)]
            exact waiting
          have kept : (e'.ooo.latchIdRn 0).valid = true := by rwa [(stageIf_refills fetched).idRn]
          unfold OOOState.frontRem
          rw [if_pos kept, if_neg (by rw [ready]; exact Bool.false_ne_true), if_pos waiting]
          exact Nat.lt_succ_self 1
      | false =>
          have idle : e₁.stageId = e₁ := by
            unfold stageId
            dsimp only
            rw [if_pos (by rw [waiting]; rfl)]
          rw [idle] at fetched
          have before : e₁.ooo.frontRem = 3 + OOOState.skipRem e₁.ooo.fetchPc := by
            unfold OOOState.frontRem
            rw [if_neg (by rw [ready]; exact Bool.false_ne_true), if_neg (by rw [waiting]; exact Bool.false_ne_true)]
          have after : (e'.ooo.latchIdRn 0).valid = false := by rwa [(stageIf_refills fetched).idRn]
          rw [before]
          unfold stageIf at fetched
          rw [if_neg (by rw [waiting]; exact Bool.false_ne_true)] at fetched
          obtain ⟨⟨e₂, goesOn⟩, first, later⟩ := Option.bind_eq_some_iff.mp fetched
          rcases fetchSlot_cases first with ⟨outside, rfl, same⟩ | ⟨ir, next, same⟩
          · cases later
            unfold OOOState.frontRem
            rw [if_neg (by rw [after]; exact Bool.false_ne_true), same]
            have less := skipRem_skip outside
            dsimp only
            rw [if_neg (by rw [waiting]; exact Bool.false_ne_true)]
            omega
          · have filled : (e₂.ooo.latchIfId 0).valid = true := by
              rw [same]
              change (setAt e₁.ooo.latchIfId 0 ⟨ir, true⟩ 0).valid = true
              rw [setAt_self]
            have kept : (e'.ooo.latchIfId 0).valid = true := by
              dsimp only at later
              split at later
              · exact (fetchLoop_refills later).ifId filled
              · cases later
                exact filled
            unfold OOOState.frontRem
            rw [if_neg (by rw [after]; exact Bool.false_ne_true), if_pos kept]
            omega

/-! ## Store buffer and commit -/

/-- The store buffer gets closer to empty. -/
theorem drainStoreBuf_falls (done : e.drainStoreBuf vm cfg = some e') :
    e'.ooo.bufferRem ≤ e.ooo.bufferRem ∧ (e.ooo.sbufCount ≠ 0 → e'.ooo.bufferRem < e.ooo.bufferRem) ∧
      e'.ooo.sbufCount ≤ e.ooo.sbufCount ∧ (∀ eu s, OOOState.Stays eu s e.ooo e'.ooo) ∧ e'.ooo.mshr = e.ooo.mshr ∧
      (e.ooo.sbufDrainTick ≤ 7 → e'.ooo.sbufDrainTick ≤ 7) := by
  unfold drainStoreBuf at done
  dsimp only at done
  split at done
  · next empty =>
      cases done
      exact ⟨Nat.le_refl _, absurd empty, Nat.le_refl _, fun _ _ => .refl .., rfl, id⟩
  · next waiting =>
      have less : e'.ooo.bufferRem < e.ooo.bufferRem ∧ e'.ooo.sbufCount ≤ e.ooo.sbufCount ∧
          (∀ eu s, OOOState.Stays eu s e.ooo e'.ooo) ∧ e'.ooo.mshr = e.ooo.mshr ∧
          (e.ooo.sbufDrainTick ≤ 7 → e'.ooo.sbufDrainTick ≤ 7) := by
        split at done
        · next slow =>
            cases done
            refine ⟨?_, Nat.le_refl _, fun _ _ => .of_latch rfl rfl rfl, rfl, fun bound => (Nat.sub_le _ 1).trans bound⟩
            change 8 * e.ooo.sbufCount + (e.ooo.sbufDrainTick - 1) < 8 * e.ooo.sbufCount + e.ooo.sbufDrainTick
            omega
        · next due =>
            obtain ⟨world, _, rfl⟩ := Option.map_eq_some_iff.mp done
            have period : levelToLat 1 - 1 = 7 := rfl
            refine ⟨?_, Nat.sub_le _ 1, fun _ _ => .of_latch rfl rfl rfl, rfl, fun bound => ?_⟩
            · change 8 * (e.ooo.sbufCount - 1) + (if cfg.numCores > 1 then levelToLat 1 - 1 else e.ooo.sbufDrainTick) <
                8 * e.ooo.sbufCount + e.ooo.sbufDrainTick
              rw [period]
              split <;> omega
            · change (if cfg.numCores > 1 then levelToLat 1 - 1 else e.ooo.sbufDrainTick) ≤ 7
              rw [period]
              split <;> omega
      exact ⟨Nat.le_of_lt less.1, fun _ => less.1, less.2⟩

/-- A commit attempt that stops: the oldest instruction is not ready, or waits for the store buffer. -/
theorem commitOne_stops (done : e.commitOne vm cfg = some (e', false)) : e'.ooo = e.ooo ∧
    (e.ooo.robCount ≠ 0 → (e.ooo.rob e.ooo.robHead).valid = true → (e.ooo.rob e.ooo.robHead).ready = true →
      e.ooo.sbufCount ≠ 0) := by
  have traced : (e.commitTrace cfg (e.ooo.rob e.ooo.robHead).ir).ooo = e.ooo := by
    obtain ⟨tcIr, lines, same, _⟩ := commitTrace_eq cfg e (e.ooo.rob e.ooo.robHead).ir
    rw [same]
  unfold commitOne at done
  dsimp only at done
  split at done
  · next idle =>
      cases done
      refine ⟨rfl, fun live valid ready => ?_⟩
      rw [valid, ready] at idle
      simp [live] at idle
  · split at done
    · next waits =>
        cases done
        exact ⟨traced, fun _ _ _ => Nat.ne_of_gt waits.2⟩
    · split at done
      · cases done
      · split at done
        · next full =>
            cases done
            exact ⟨traced, fun _ _ _ => Nat.ne_of_gt (Nat.lt_of_lt_of_le (by decide) full.2.2)⟩
        · obtain ⟨_, _, rest⟩ := Option.bind_eq_some_iff.mp done
          split at rest
          · obtain ⟨_, _, rest⟩ := Option.bind_eq_some_iff.mp rest
            cases rest
          · cases rest

/-- A commit phase that commits nothing. -/
theorem stageCommit_waits (ok : e.ooo.Ok) (done : e.stageCommit vm cfg = some e')
    (quiet : e'.committedCount = e.committedCount) : e'.ooo = e.ooo ∧
      (e.ooo.robCount ≠ 0 → (e.ooo.rob e.ooo.robHead).ready = true → e.ooo.sbufCount ≠ 0) := by
  obtain ⟨⟨e₁, goesOn⟩, one, rest⟩ := Option.bind_eq_some_iff.mp done
  cases goesOn with
  | false =>
      cases rest
      obtain ⟨same, waits⟩ := commitOne_stops one
      exact ⟨same, fun live ready => waits live (ok.inv.renamed.head_valid live) ready⟩
  | true =>
      obtain ⟨tcIr, lines, _, ⟨absurdity, _⟩ | ⟨step, committed⟩⟩ := commitOne_cases one
      · cases absurdity
      · have more := committed.committedCount
        have later := steps_committedCount_le (ReflTransGen.mono (fun _ _ => .inl) _ _ (commitLoop_steps rest))
        have before : e.committedCount ≤ (commits (e.log ++ lines)).length := by
          rw [commits_append, List.length_append]
          exact Nat.le_add_right _ _
        change e₁.committedCount = (commits (e.log ++ lines)).length + 1 at more
        omega

/-! ## A cycle -/

section Cycle

variable (vm cfg) in
/-- The functional units, slot by slot. -/
def visitAll (slots : List (EU × Fin 2)) (e : Engine σ β) : Option (Engine σ β) :=
  slots.foldlM (fun e p => (Phase.slot p.1 p.2).step vm cfg e) e

theorem cycle_eq_visits (e : Engine σ β) : e.cycle vm cfg = (do
    let e₁ ← e.drainStoreBuf vm cfg
    let e₂ ← e₁.stageCommit vm cfg
    let e₃ ← visitAll vm cfg OOOState.issueOrder { e₂ with ooo := e₂.ooo.mshrTick }
    let e₄ ← Engine.stageRn { e₃ with ooo := e₃.ooo.stageIs }
    let e₅ ← e₄.stageId.stageIf vm cfg
    some e₅.tick) := by
  simp [cycle, visitAll, OOOState.issueOrder, Phase.step, unitInt, unitMul, unitLsu, unit, EU.slots,
    Option.bind_assoc]

end Cycle

section Counted

variable {δ : Type} {mem : MemConfig δ} {cfg : OooConfig β} {e e' : Engine (MemState δ) β}

variable (mem cfg) in
theorem Phase.counted (phase : Phase) (counted : e.ooo.Counted) (done : phase.step (hierarchy mem) cfg e = some e')
    (timed : e'.ooo.Timed) : e'.ooo.Counted := by
  have keeps : ∀ e e' : Engine (MemState δ) β, e.ooo.Ok → e.ooo.WaitsCached → Step (hierarchy mem) cfg e e' →
      e'.ooo.WaitsCached := by
    intro e e' ok cached step
    rcases step with back | front
    · exact back.waitsCached ok cached
    · exact front.waitsCached ok cached
  obtain ⟨ok, tidy, cached⟩ := phase.keeps keeps counted.ok counted.tidy counted.cached done
  exact ⟨ok, tidy, cached, phase.mshrOk counted.ok counted.tidy counted.cached counted.mshrOk done, timed⟩

theorem commitLoop_timed {turns : Nat} (timed : e.ooo.Timed) (done : commitLoop (hierarchy mem) cfg turns e = some e') :
    e'.ooo.Timed := by
  induction turns generalizing e with
  | zero =>
      cases done
      exact timed
  | succ turns ih =>
      obtain ⟨⟨e₁, goesOn⟩, one, rest⟩ := Option.bind_eq_some_iff.mp done
      have step : e₁.ooo.Timed := by
        obtain ⟨tcIr, lines, _, ⟨_, rfl⟩ | ⟨_, committed⟩⟩ := commitOne_cases one
        · exact timed
        · rw [committed.ooo]
          exact timed.afterCommit
      dsimp only at rest
      split at rest
      · exact ih step rest
      · cases rest
        exact step

theorem slot_visits (counted : e.ooo.Counted) {eu : EU} {s : Fin 2}
    (done : (Phase.slot eu s).step (hierarchy mem) cfg e = some e') :
    ReflTransGen (BackStep (hierarchy mem) cfg) e e' ∧ OOOState.Visits eu s e.ooo e'.ooo := by
  cases eu with
  | int => exact ⟨intSlot_steps counted.ok done, intSlot_visits done⟩
  | mul => exact ⟨mulSlot_steps counted.ok done, mulSlot_visits done⟩
  | lsu => exact ⟨lsuSlot_steps counted.ok done, lsuSlot_visits counted.mshrOk counted.timed done⟩

theorem visitAll_visited {slots : List (EU × Fin 2)} (different : slots.Nodup) (counted : e.ooo.Counted)
    (done : visitAll (hierarchy mem) cfg slots e = some e') :
    ReflTransGen (BackStep (hierarchy mem) cfg) e e' ∧ e'.ooo.Counted ∧ OOOState.Visited slots e.ooo e'.ooo := by
  induction slots generalizing e with
  | nil =>
      cases done
      exact ⟨.refl, counted, .nil _⟩
  | cons p rest ih =>
      obtain ⟨e₁, first, later⟩ := Option.bind_eq_some_iff.mp done
      obtain ⟨apart, different⟩ := List.nodup_cons.mp different
      obtain ⟨steps, visits⟩ := slot_visits counted first
      obtain ⟨steps', counted', visited⟩ := ih different (Phase.counted mem cfg (.slot p.1 p.2) counted first (visits.timed counted.timed)) later
      exact ⟨steps.trans steps', counted', .cons visits visited apart⟩

variable (mem cfg) in
/-- A cycle with its states after the drain, the commits and the units, and behind the issue. -/
structure Turn (e e₁ e₂ e₃ e₄ e' : Engine (MemState δ) β) : Prop where
  drained : e.drainStoreBuf (hierarchy mem) cfg = some e₁
  committed : e₁.stageCommit (hierarchy mem) cfg = some e₂
  visited : visitAll (hierarchy mem) cfg OOOState.issueOrder { e₂ with ooo := e₂.ooo.mshrTick } = some e₃
  renamed : Engine.stageRn { e₃ with ooo := e₃.ooo.stageIs } = some e₄
  fetched : e₄.stageId.stageIf (hierarchy mem) cfg = some e'

theorem turn_of_cycle (done : e.cycle (hierarchy mem) cfg = some e') :
    ∃ e₁ e₂ e₃ e₄ e₅, Turn mem cfg e e₁ e₂ e₃ e₄ e₅ ∧ e' = e₅.tick := by
  rw [cycle_eq_visits] at done
  obtain ⟨e₁, drained, done⟩ := Option.bind_eq_some_iff.mp done
  obtain ⟨e₂, committed, done⟩ := Option.bind_eq_some_iff.mp done
  obtain ⟨e₃, visited, done⟩ := Option.bind_eq_some_iff.mp done
  obtain ⟨e₄, renamed, done⟩ := Option.bind_eq_some_iff.mp done
  obtain ⟨e₅, fetched, done⟩ := Option.bind_eq_some_iff.mp done
  exact ⟨e₁, e₂, e₃, e₄, e₅, ⟨drained, committed, visited, renamed, fetched⟩, (Option.some.inj done).symm⟩

namespace Turn

variable {e₁ e₂ e₃ e₄ : Engine (MemState δ) β} (turn : Turn mem cfg e e₁ e₂ e₃ e₄ e') (counted : e.ooo.Counted)

include turn counted

theorem afterDrain : e₁.ooo.Counted := by
  obtain ⟨_, _, _, stays, mshr, tick⟩ := drainStoreBuf_falls turn.drained
  refine Phase.counted mem cfg .drain counted turn.drained ?_
  exact counted.timed.keep (by rw [mshr]; exact counted.timed.mshr) (stays .mul) (tick counted.timed.drain)

theorem afterCommits : e₂.ooo.Counted := by
  have before := turn.afterDrain counted
  exact Phase.counted mem cfg .commit before turn.committed
    (commitLoop_timed (e := { e₁ with tcIr := [] }) before.timed turn.committed)

theorem afterMshrs : e₂.ooo.mshrTick.Counted := by
  have before := turn.afterCommits counted
  exact Phase.counted mem cfg .mshr before rfl before.timed.mshrTick

theorem afterUnits : ReflTransGen (BackStep (hierarchy mem) cfg) { e₂ with ooo := e₂.ooo.mshrTick } e₃ ∧
    e₃.ooo.Counted ∧ OOOState.Visited OOOState.issueOrder e₂.ooo.mshrTick e₃.ooo :=
  visitAll_visited (by decide) (e := { e₂ with ooo := e₂.ooo.mshrTick }) (turn.afterMshrs counted) turn.visited

theorem afterIssue : e₃.ooo.stageIs.Counted := by
  have before := (turn.afterUnits counted).2.1
  exact Phase.counted mem cfg .issue before rfl before.timed.stageIs

/-- Renaming, decoding and fetching. -/
theorem front : ReflTransGen (FrontStep (hierarchy mem) cfg) { e₃ with ooo := e₃.ooo.stageIs } e' ∧
    e₃.ooo.stageIs.Still e'.ooo ∧ e'.ooo.Counted := by
  have before := turn.afterIssue counted
  have still₁ := stageRn_still turn.renamed
  have still₂ := stageId_still e₄
  have still₃ := (stageIf_refills turn.fetched).still
  have counted₁ := Phase.counted mem cfg .rename before turn.renamed (still₁.timed before.timed)
  have counted₂ := Phase.counted mem cfg .decode counted₁ rfl (still₂.timed counted₁.timed)
  have counted₃ := Phase.counted mem cfg .fetch counted₂ turn.fetched (still₃.timed counted₂.timed)
  have steps₁ := (stageRn_steps (hierarchy mem) cfg before.tidy turn.renamed).1
  have steps₂ := (stageId_steps (hierarchy mem) cfg counted₁.ok counted₁.tidy).1
  have steps₃ := (stageIf_steps counted₂.ok turn.fetched).1
  exact ⟨steps₁.trans (steps₂.trans steps₃), still₁.trans (still₂.trans still₃), counted₃⟩

/-- The back end up to the issue. -/
theorem toUnits : ReflTransGen (BackStep (hierarchy mem) cfg) e e₃ :=
  (drainStoreBuf_steps turn.drained).trans ((stageCommit_steps turn.committed).trans
    (.head (mshrTick_step e₂) (turn.afterUnits counted).1))

theorem counts : e.committedCount ≤ e₁.committedCount ∧ e₁.committedCount ≤ e₂.committedCount ∧
    e₂.committedCount ≤ e₃.committedCount ∧ e₃.committedCount ≤ e'.committedCount := by
  have back {a b : Engine (MemState δ) β} (steps : ReflTransGen (BackStep (hierarchy mem) cfg) a b) :
      a.committedCount ≤ b.committedCount := steps_committedCount_le (ReflTransGen.mono (fun _ _ => .inl) _ _ steps)
  have front {a b : Engine (MemState δ) β} (steps : ReflTransGen (FrontStep (hierarchy mem) cfg) a b) :
      a.committedCount ≤ b.committedCount := steps_committedCount_le (ReflTransGen.mono (fun _ _ => .inr) _ _ steps)
  have last := front (turn.front counted).1
  exact ⟨back (drainStoreBuf_steps turn.drained), back (stageCommit_steps turn.committed),
    back (.head (mshrTick_step e₂) (turn.afterUnits counted).1), last⟩

section Quiet

variable (quiet : e'.committedCount = e.committedCount)

include quiet

theorem waits : e₂.ooo = e₁.ooo ∧
    (e₁.ooo.robCount ≠ 0 → (e₁.ooo.rob e₁.ooo.robHead).ready = true → e₁.ooo.sbufCount ≠ 0) := by
  have counts := turn.counts counted
  exact stageCommit_waits (turn.afterDrain counted).ok turn.committed (by omega)

theorem waited : e.ooo.Waited e₃.ooo e'.ooo := by
  have counts := turn.counts counted
  obtain ⟨_, _, _, stays, _, _⟩ := drainStoreBuf_falls turn.drained
  have same := (turn.waits counted quiet).1
  obtain ⟨_, countedUnits, visited⟩ := turn.afterUnits counted
  obtain ⟨steps, still, counted'⟩ := turn.front counted
  have front : e₃.ooo.stageIs.Nears e'.ooo :=
    steps_nears (ReflTransGen.mono (fun _ _ => .inr) _ _ steps) (turn.afterIssue counted).ok (by
      change e'.committedCount = e₃.committedCount
      omega)
  refine ⟨counted.ok, countedUnits.ok, counted'.ok, counted.timed, counted'.timed, ?_, fun p listed => ?_, front, still⟩
  · exact steps_nears (ReflTransGen.mono (fun _ _ => .inl) _ _ (turn.toUnits counted)) counted.ok (by omega)
  · have falls := (visited.works p listed).falls (turn.afterCommits counted).mshrOk
    rw [same] at falls
    exact falls.after (stays p.1 p.2)

theorem buffer : e'.ooo.bufferRem = e₁.ooo.bufferRem := by
  obtain ⟨_, _, visited⟩ := turn.afterUnits counted
  have still := (turn.front counted).2.1.timers
  have same := (turn.waits counted quiet).1
  have tick : e₃.ooo.stageIs.sbufDrainTick = e₃.ooo.sbufDrainTick ∧ e₃.ooo.stageIs.sbufCount = e₃.ooo.sbufCount :=
    OOOState.issueAll_stores OOOState.issueOrder e₃.ooo
  unfold OOOState.bufferRem
  rw [still.tick, still.stores, tick.1, tick.2, visited.tick, visited.stores]
  change 8 * e₂.ooo.sbufCount + e₂.ooo.sbufDrainTick = _
  rw [same]

/-- A cycle without a commit gets closer to one, unless it is jammed. -/
theorem commitRem_le : e'.ooo.commitRem ≤ e.ooo.commitRem ∧
    (e'.ooo.commitRem < e.ooo.commitRem ∨ e.ooo.Jammed) := by
  have waited := turn.waited counted quiet
  have buffer := turn.buffer counted quiet
  have waits := (turn.waits counted quiet).2
  obtain ⟨drained, drains, fewer, _⟩ := drainStoreBuf_falls turn.drained
  rw [← buffer] at drained drains
  have lower : e'.ooo.commitRem < e.ooo.commitRem → e'.ooo.commitRem ≤ e.ooo.commitRem ∧
      (e'.ooo.commitRem < e.ooo.commitRem ∨ e.ooo.Jammed) := fun less => ⟨Nat.le_of_lt less, .inl less⟩
  by_cases empty : e.ooo.robCount = 0
  · apply lower
    have steps := (turn.toUnits counted).trans (stageIs_steps e₃)
    have bare := backSteps_bare steps counted.ok empty
    have front := front_falls (turn.afterIssue counted).ok bare.empty turn.renamed turn.fetched
    have same : e₃.ooo.stageIs.frontRem = e.ooo.frontRem := by
      unfold OOOState.frontRem
      rw [bare.idRn, bare.ifId, bare.fetchPc]
    change e'.ooo.robCount ≠ 0 ∨ e'.ooo.frontRem < e₃.ooo.stageIs.frontRem at front
    rw [same] at front
    have before : e.ooo.headRem = 300 + e.ooo.frontRem := if_pos empty
    have after : e'.ooo.headRem < 300 + e.ooo.frontRem := by
      by_cases still : e'.ooo.robCount = 0
      · have here : e'.ooo.headRem = 300 + e'.ooo.frontRem := if_pos still
        have less := front.resolve_left (absurd still)
        omega
      · have bound := waited.timed'.headRem_le still
        omega
    unfold OOOState.commitRem
    omega
  · cases ready : (e.ooo.rob e.ooo.robHead).ready with
    | true =>
        apply lower
        have counts := turn.counts counted
        have drainNears : e.ooo.Nears e₁.ooo := steps_nears (ReflTransGen.mono (fun _ _ => .inl) _ _
          (drainStoreBuf_steps turn.drained)) counted.ok (by omega)
        have ready₁ := drainNears.ready empty ready
        rw [← drainNears.head] at ready₁
        have waiting := waits (drainNears.live empty) ready₁
        have ready' := waited.nears.ready empty ready
        rw [← waited.nears.head] at ready'
        have less := drains (by omega)
        unfold OOOState.commitRem
        rw [OOOState.headRem_ready empty ready, OOOState.headRem_ready (waited.nears.live empty) ready']
        omega
    | false =>
        obtain ⟨most, less⟩ := waited.headRem_le empty ready
        unfold OOOState.commitRem
        exact ⟨Nat.add_le_add most drained, less.imp_left fun less => Nat.add_lt_add_of_lt_of_le less drained⟩

end Quiet

end Turn

theorem cycle_counted (counted : e.ooo.Counted) (done : e.cycle (hierarchy mem) cfg = some e') : e'.ooo.Counted := by
  obtain ⟨_, _, _, _, _, turn, rfl⟩ := turn_of_cycle done
  exact (turn.front counted).2.2

/-- The measure falls in every cycle that neither commits nor is jammed. -/
theorem cycle_commitRem (counted : e.ooo.Counted) (done : e.cycle (hierarchy mem) cfg = some e')
    (quiet : e'.committedCount = e.committedCount) : e'.ooo.commitRem ≤ e.ooo.commitRem ∧
      (e'.ooo.commitRem < e.ooo.commitRem ∨ e.ooo.Jammed) := by
  obtain ⟨_, _, _, _, _, turn, rfl⟩ := turn_of_cycle done
  exact turn.commitRem_le counted quiet

theorem cycle_bufferRem (counted : e.ooo.Counted) (done : e.cycle (hierarchy mem) cfg = some e')
    (quiet : e'.committedCount = e.committedCount) : e'.ooo.bufferRem ≤ e.ooo.bufferRem := by
  obtain ⟨_, _, _, _, _, turn, rfl⟩ := turn_of_cycle done
  exact (turn.buffer counted quiet).trans_le (drainStoreBuf_falls turn.drained).1

theorem cycle_committedCount_le (counted : e.ooo.Counted) (done : e.cycle (hierarchy mem) cfg = some e') :
    e.committedCount ≤ e'.committedCount := by
  obtain ⟨_, _, _, _, _, turn, rfl⟩ := turn_of_cycle done
  obtain ⟨first, second, third, fourth⟩ := turn.counts counted
  exact first.trans (second.trans (third.trans fourth))

end Counted

end Engine

end Sustemu
