import Sustemu.Ooo.FrontEnd

/-!
# The engine's front end is the one of width 2

`Engine.front` forgets everything but the latches and the counters that rename
tests. Each stage of the engine is the stage of the front end at width 2, and
the back end touches the latches only to flush them, so a run of the engine is
a run of the front end.
-/

set_option autoImplicit false

namespace Sustemu

open Lib Relation

/-- A latch array of two slots. -/
def Front.array (latch : Fin 2 → PipeReg) : Nat → PipeReg
  | 0 => latch 0
  | 1 => latch 1
  | _ => ⟨IRInst.zero, false⟩

namespace Front

variable (latch : Fin 2 → PipeReg)

@[simp] theorem array_val (n : Fin 2) : array latch n.val = latch n := by
  match n with
  | 0 => rfl
  | 1 => rfl

theorem array_update (n : Fin 2) (reg : PipeReg) :
    array (setAt latch n reg) = setAt (array latch) n.val reg := by
  funext s
  match n, s with
  | 0, 0 => rfl
  | 0, 1 => rfl
  | 1, 0 => rfl
  | 1, 1 => rfl
  | 0, s + 2 => rfl
  | 1, s + 2 => rfl

theorem array_clear :
    array (fun s => { latch s with valid := false }) =
      fun s => if s < 2 then { array latch s with valid := false } else array latch s := by
  funext s
  match s with
  | 0 => rfl
  | 1 => rfl
  | s + 2 => simp [array]

end Front

namespace Engine

variable {σ β : Type} {vm : VMem σ} {cfg : OooConfig β} {e e' : Engine σ β}

/-- The front end of an engine, with the two histories. -/
def front (e : Engine σ β) (fetched allocated : List IRInst) : Front where
  latchIdRn := Front.array e.ooo.latchIdRn
  latchIfId := Front.array e.ooo.latchIfId
  fetchPc := e.ooo.fetchPc
  robCount := e.ooo.robCount
  rsUsed := rsUsed e.ooo
  freeCount := e.ooo.freelist.count
  fetched := fetched
  allocated := allocated

variable (fetched allocated : List IRInst)

/-! ## Rename -/

theorem rsUsed_update {o o' : OOOState} {slot : RsIdx} (free : o.rsFreeMask slot = true)
    (mask : o'.rsFreeMask = setAt o.rsFreeMask slot false) : rsUsed o' = rsUsed o + 1 := by
  have member : slot ∈ (List.finRange 16).filter o.rsFreeMask :=
    List.mem_filter.mpr ⟨List.mem_finRange slot, free⟩
  have erased : (List.finRange 16).filter o'.rsFreeMask = ((List.finRange 16).filter o.rsFreeMask).erase slot := by
    rw [((List.nodup_finRange 16).filter _).erase_eq_filter, List.filter_filter, mask]
    refine List.filter_congr fun s _ => ?_
    rcases eq_or_ne s slot with rfl | other
    · simp
    · simp [other]
  have bound : ((List.finRange 16).filter o.rsFreeMask).length ≤ 16 := by
    simpa using List.length_filter_le o.rsFreeMask (List.finRange 16)
  have some := List.length_pos_of_mem member
  unfold rsUsed
  rw [erased, List.length_erase_of_mem member]
  unfold rsSize
  omega

theorem renameDest_count (o : OOOState) (ir : IRInst) :
    (o.renameDest ir.rd).2.2.freelist.count =
      if ir.renames then o.freelist.count - 1 else o.freelist.count := by
  unfold OOOState.renameDest IRInst.renames
  cases ir.rd with
  | none => rfl
  | some a => by_cases zero : a = 0 <;> simp [zero, OOOState.freelistPop, OOOState.setPrf, Option.filter]

theorem renameSlot_front {n : Fin 2} (done : e.renameSlot n = some e') :
    e'.front fetched (allocated ++ [(e.ooo.latchIdRn n).ir]) = (e.front fetched allocated).renameSlot n := by
  unfold renameSlot at done
  obtain ⟨o, renamed, rfl⟩ := Option.map_eq_some_iff.mp done
  obtain ⟨slot, renames⟩ := OOOState.renames_of_renameInst renamed
  unfold front Front.renameSlot
  rw [Front.mk.injEq]
  refine ⟨?_, congrArg Front.array renames.latchIfId, renames.fetchPc, renames.count,
    rsUsed_update renames.free renames.freeMask, ?_, rfl, ?_⟩
  · simp only [renames.latchIdRn, Front.array_update, Front.array_val]
  · simp only [renames.freelist, renameDest_count, Front.array_val]
  · simp only [Front.array_val]

theorem renameStall_isSome (o : OOOState) (n : Fin 2) (ir : IRInst) (used : Nat) :
    (renameStall o n ir used).isSome = true ↔ ir.serializing = true ∧ (o.robCount > 0 ∨ n > 0) ∨
      o.robCount ≥ robSize ∨ used ≥ rsSize ∨ ir.renames = true ∧ o.freelist.count = 0 := by
  unfold renameStall IRInst.renames
  by_cases serial : ir.serializing = true ∧ (o.robCount > 0 ∨ n > 0)
  · rw [if_pos serial]
    exact iff_of_true rfl (.inl serial)
  rw [if_neg serial]
  by_cases full : o.robCount ≥ robSize
  · rw [if_pos full]
    exact iff_of_true rfl (.inr (.inl full))
  rw [if_neg full]
  by_cases stations : used ≥ rsSize
  · rw [if_pos stations]
    exact iff_of_true rfl (.inr (.inr (.inl stations)))
  rw [if_neg stations]
  by_cases names : (ir.rd.filter (· ≠ 0)).isSome = true ∧ o.freelist.count = 0
  · rw [if_pos names]
    exact iff_of_true rfl (.inr (.inr (.inr names)))
  rw [if_neg names]
  exact iff_of_false Bool.false_ne_true fun stall => by
    rcases stall with stall | stall | stall | stall
    · exact serial stall
    · exact full stall
    · exact stations stall
    · exact names stall

theorem renameStall_front (n : Fin 2) :
    (renameStall e.ooo n (e.ooo.latchIdRn n).ir (rsUsed e.ooo)).isSome = (e.front fetched allocated).stalls n := by
  rw [Bool.eq_iff_iff, renameStall_isSome]
  unfold Front.stalls
  rw [show (e.front fetched allocated).latchIdRn n = e.ooo.latchIdRn n from Front.array_val _ n]
  simp only [Bool.or_eq_true, Bool.and_eq_true, decide_eq_true_eq, or_assoc]
  exact Iff.rfl

theorem renameLoop_front {slots : List (Fin 2)} (done : renameLoop slots (rsUsed e.ooo) e = some e') :
    ∃ taken, e'.front fetched (allocated ++ taken) =
      Front.renameLoop (slots.map Fin.val) (e.front fetched allocated) := by
  induction slots generalizing e allocated with
  | nil =>
      cases done
      exact ⟨[], by rw [List.append_nil]; rfl⟩
  | cons n rest ih =>
      rw [List.map_cons, Front.renameLoop, show (e.front fetched allocated).latchIdRn n = e.ooo.latchIdRn n from
        Front.array_val _ n, ← renameStall_front]
      unfold renameLoop at done
      cases valid : (e.ooo.latchIdRn n).valid with
      | false =>
          rw [valid] at done
          cases done
          exact ⟨[], by rw [List.append_nil]; rfl⟩
      | true =>
          rw [valid] at done
          cases stall : renameStall e.ooo n (e.ooo.latchIdRn n).ir (rsUsed e.ooo) with
          | some count =>
              rw [stall] at done
              cases done
              exact ⟨[], by rw [List.append_nil]; rfl⟩
          | none =>
              rw [stall] at done
              obtain ⟨e₁, first, done⟩ := Option.bind_eq_some_iff.mp done
              have here := renameSlot_front fetched allocated first
              have used : rsUsed e.ooo + 1 = rsUsed e₁.ooo := (congrArg Front.rsUsed here).symm
              rw [used] at done
              obtain ⟨taken, result⟩ := ih (allocated ++ [(e.ooo.latchIdRn n).ir]) done
              refine ⟨(e.ooo.latchIdRn n).ir :: taken, ?_⟩
              rw [here] at result
              simpa using result

theorem compact_front (behind : PipeReg) (e : Engine σ β) :
    ({ e with ooo := compact e.ooo } : Engine σ β).front fetched allocated =
      (e.front fetched allocated).compact 2 behind := by
  unfold compact Front.compact
  rw [show (e.front fetched allocated).slotOne 2 behind = e.ooo.latchIdRn 1 from rfl,
    show (e.front fetched allocated).latchIdRn 0 = e.ooo.latchIdRn 0 from rfl]
  split
  · have latches : Front.array (fun s => if s = 0 then e.ooo.latchIdRn 1 else { e.ooo.latchIdRn 1 with valid := false }) =
        fun s => if s = 0 then e.ooo.latchIdRn 1 else if s = 1 then { e.ooo.latchIdRn 1 with valid := false }
          else Front.array e.ooo.latchIdRn s := by
      funext s
      match s with
      | 0 => rfl
      | 1 => rfl
      | s + 2 => rfl
    unfold front
    rw [← latches]
    rfl
  · rfl

theorem stageRn_front (behind : PipeReg) (done : e.stageRn = some e') :
    ∃ allocated', e'.front fetched allocated' = (e.front fetched allocated).stageRn 2 behind := by
  unfold stageRn at done
  unfold Front.stageRn
  rw [show (e.front fetched allocated).latchIdRn 0 = e.ooo.latchIdRn 0 from rfl]
  split at done
  · next idle =>
      cases done
      exact ⟨allocated, by rw [if_pos idle]⟩
  · next group =>
      obtain ⟨e₁, renamed, rfl⟩ := Option.map_eq_some_iff.mp done
      obtain ⟨taken, result⟩ := renameLoop_front fetched allocated renamed
      refine ⟨allocated ++ taken, ?_⟩
      rw [if_neg group, compact_front fetched _ behind, result]
      rfl

/-! ## Decode and fetch -/

theorem stageId_front (e : Engine σ β) :
    e.stageId.front fetched allocated = (e.front fetched allocated).stageId 2 := by
  unfold stageId Front.stageId
  rw [show (e.front fetched allocated).latchIfId 0 = e.ooo.latchIfId 0 from rfl,
    show (e.front fetched allocated).latchIdRn 0 = e.ooo.latchIdRn 0 from rfl]
  simp only
  split
  · rfl
  · have moved : Front.array e.ooo.latchIfId =
        fun s => if s < 2 then Front.array e.ooo.latchIfId s else Front.array e.ooo.latchIdRn s := by
      funext s
      match s with
      | 0 => rfl
      | 1 => rfl
      | s + 2 => simp [Front.array]
    simp only [front]
    rw [Front.array_clear, ← moved]
    rfl

theorem setFetched_front (e : Engine σ β) (s : Fin 2) (ir : IRInst) (pc : Word) (target : Option Word) :
    (e.setFetched s ir (target.getD (pc + 4))).front (fetched ++ [ir]) allocated =
      (e.front fetched allocated).setFetched s pc (ir, target) := by
  unfold front setFetched Front.setFetched
  rw [Front.array_update]
  rfl

/-- What one turn of the fetch loop does. -/
theorem fetchSlot_front {s : Fin 2} {goesOn : Bool} (done : e.fetchSlot vm cfg s = some (e', goesOn)) :
    (inDram (truncPc e.ooo.fetchPc) = false ∧ goesOn = false ∧
      e'.front fetched allocated = { e.front fetched allocated with fetchPc := truncPc e.ooo.fetchPc + 4 }) ∨
    (inDram (truncPc e.ooo.fetchPc) = true ∧ ∃ answer : IRInst × Option Word, goesOn = answer.2.isNone ∧
      e'.front (fetched ++ [answer.1]) allocated =
        (e.front fetched allocated).setFetched s (truncPc e.ooo.fetchPc) answer) := by
  unfold fetchSlot at done
  simp only at done
  split at done
  · next outside =>
      cases done
      exact .inl ⟨by simpa using outside, rfl, rfl⟩
  · next inside =>
      refine .inr ⟨by simpa using inside, ?_⟩
      obtain ⟨⟨word, world⟩, _, same⟩ := Option.map_eq_some_iff.mp done
      simp only at same
      split at same
      · split at same
        · cases same
          exact ⟨(_, some _), rfl, setFetched_front fetched allocated _ s _ _ (some _)⟩
        · cases same
          exact ⟨(_, none), rfl, setFetched_front fetched allocated _ s _ _ none⟩
      · cases same
        exact ⟨(_, none), rfl, setFetched_front fetched allocated _ s _ _ none⟩

theorem fetchLoop_front {slots : List (Fin 2)} (distinct : slots.Nodup)
    (done : fetchLoop vm cfg slots e = some e') : ∃ fetch fetched',
      e'.front fetched' allocated = Front.fetchLoop fetch (slots.map Fin.val) (e.front fetched allocated) := by
  induction slots generalizing e fetched with
  | nil =>
      cases done
      exact ⟨fun _ _ => (IRInst.zero, none), fetched, rfl⟩
  | cons s rest ih =>
      obtain ⟨absent, distinct⟩ := List.nodup_cons.mp distinct
      unfold fetchLoop at done
      obtain ⟨⟨e₁, goesOn⟩, first, done⟩ := Option.bind_eq_some_iff.mp done
      rcases fetchSlot_front fetched allocated first with ⟨outside, rfl, result⟩ | ⟨inside, answer, rfl, result⟩
      · cases done
        refine ⟨fun _ _ => (IRInst.zero, none), fetched, ?_⟩
        rw [result, List.map_cons, Front.fetchLoop]
        simp [front, outside]
      · cases redirect : answer.2 with
        | some target =>
            rw [redirect] at done
            cases done
            refine ⟨fun _ _ => answer, fetched ++ [answer.1], ?_⟩
            rw [result, List.map_cons, Front.fetchLoop]
            simp [front, inside, redirect]
        | none =>
            rw [redirect] at done
            obtain ⟨fetch, fetched', later⟩ := ih (fetched ++ [answer.1]) distinct done
            -- The answers for the other slots stay what they are.
            refine ⟨setAt fetch s.val fun _ => answer, fetched', ?_⟩
            have here : setAt fetch s.val (fun _ => answer) s.val (truncPc e.ooo.fetchPc) = answer := by
              rw [setAt_self]
            have others : ∀ t ∈ rest.map Fin.val, fetch t = setAt fetch s.val (fun _ => answer) t := by
              intro t member
              obtain ⟨slot, listed, rfl⟩ := List.mem_map.mp member
              rw [setAt_of_ne]
              intro same
              exact absent (Fin.val_injective same ▸ listed)
            rw [later, result, List.map_cons, Front.fetchLoop_congr others,
              Front.fetchLoop_goes _ (show inDram (truncPc (e.front fetched allocated).fetchPc) = true from inside)
                ((congrArg Prod.snd here).trans redirect)]
            rw [show (e.front fetched allocated).fetchPc = e.ooo.fetchPc from rfl, here]

theorem stageIf_front (done : e.stageIf vm cfg = some e') :
    ∃ fetch fetched', e'.front fetched' allocated = (e.front fetched allocated).stageIf 2 fetch := by
  unfold stageIf at done
  unfold Front.stageIf
  rw [show (e.front fetched allocated).latchIfId 0 = e.ooo.latchIfId 0 from rfl]
  split at done
  · next waits =>
      cases done
      exact ⟨fun _ _ => (IRInst.zero, none), fetched, by rw [if_pos waits]⟩
  · next empty =>
      obtain ⟨fetch, fetched', result⟩ := fetchLoop_front fetched allocated (by decide) done
      exact ⟨fetch, fetched', by rw [if_neg empty, result]; rfl⟩

/-! ## The back end -/

theorem rollback_latches (turns : Nat) (o : OOOState) :
    (OOOState.rollback turns o).latchIdRn = o.latchIdRn ∧ (OOOState.rollback turns o).latchIfId = o.latchIfId := by
  induction turns generalizing o with
  | zero => exact ⟨rfl, rfl⟩
  | succ turns ih =>
      have one : o.rollbackOne.latchIdRn = o.latchIdRn ∧ o.rollbackOne.latchIfId = o.latchIfId := by
        unfold OOOState.rollbackOne
        simp only
        split
        · cases (o.rob (o.robTail - 1)).pending with
          | none => split <;> exact ⟨rfl, rfl⟩
          | some r => split <;> exact ⟨rfl, rfl⟩
        · exact ⟨rfl, rfl⟩
      obtain ⟨idRn, ifId⟩ := ih o.rollbackOne
      exact ⟨idRn.trans one.1, ifId.trans one.2⟩

/-- The counters and the flush that take one engine to another, seen from the front end. -/
def BackEnd (e e' : Engine σ β) : Prop :=
  ∃ flush : Option Word, ∀ fetched allocated behind fetch, ∃ fetched' allocated',
    e'.front fetched' allocated' = (e.front fetched allocated).backEnd 2
      ⟨e'.ooo.robCount, rsUsed e'.ooo, e'.ooo.freelist.count, flush, behind, fetch⟩

theorem BackEnd.same (idRn : e'.ooo.latchIdRn = e.ooo.latchIdRn) (ifId : e'.ooo.latchIfId = e.ooo.latchIfId)
    (fetchPc : e'.ooo.fetchPc = e.ooo.fetchPc) : BackEnd e e' := by
  refine ⟨none, fun fetched allocated behind fetch => ⟨fetched, allocated, ?_⟩⟩
  unfold front Front.backEnd
  rw [idRn, ifId, fetchPc]

theorem BackStep.backEnd (step : e.BackStep vm cfg e') : BackEnd e e' := by
  cases step with
  | commit live ready ordered sound room stored checked =>
      have frame := OOOState.afterCommit_frame e.ooo
      rw [← (commits_of_checked stored checked).ooo] at frame
      exact .same frame.idRn frame.ifId frame.fetchPc
  | exec bpred fault unit live run completes faulted resolved =>
      exact .same completes.front.1 completes.front.2.1 completes.front.2.2
  | @redirect s ir sys o bpred stats live run completes control wrong target =>
      refine ⟨some ir.dnpc, fun fetched allocated behind fetch => ⟨[], [], ?_⟩⟩
      obtain ⟨idRn, ifId⟩ := rollback_latches (o.robTail - ((e.ooo.latch .int s).robIdx + 1)).val o
      have flushedIdRn : (o.flushAfter (e.ooo.latch .int s).robIdx).latchIdRn =
          fun t => { e.ooo.latchIdRn t with valid := false } := by
        rw [← completes.front.1, ← idRn]
        rfl
      have flushedIfId : (o.flushAfter (e.ooo.latch .int s).robIdx).latchIfId =
          fun t => { e.ooo.latchIfId t with valid := false } := by
        rw [← completes.front.2.1, ← ifId]
        rfl
      simp only [front, Front.backEnd, Front.redirected, flushedIdRn, flushedIfId, Front.array_clear]
  | storeDone live computed store completes =>
      exact .same completes.front.1 completes.front.2.1 completes.front.2.2
  | loadFault addressed outside completes =>
      exact .same completes.front.1 completes.front.2.1 completes.front.2.2
  | fill addressed device mapped read completes =>
      exact .same completes.front.1 completes.front.2.1 completes.front.2.2
  | _ => exact .same rfl rfl rfl

theorem BackEnd.trans {e₁ : Engine σ β} (first : BackEnd e e₁) (second : BackEnd e₁ e') : BackEnd e e' := by
  obtain ⟨older, first⟩ := first
  obtain ⟨newer, second⟩ := second
  refine ⟨newer.or older, fun fetched allocated behind fetch => ?_⟩
  obtain ⟨fetched₁, allocated₁, first⟩ := first fetched allocated behind fetch
  obtain ⟨fetched₂, allocated₂, second⟩ := second fetched₁ allocated₁ behind fetch
  refine ⟨fetched₂, allocated₂, ?_⟩
  rw [second, first]
  cases newer with
  | none => cases older <;> rfl
  | some target =>
      cases older with
      | none => rfl
      | some earlier =>
          have cleared : ∀ latch : Nat → PipeReg, (fun s => if s < 2 then
              { (if s < 2 then { latch s with valid := false } else latch s) with valid := false }
                else if s < 2 then { latch s with valid := false } else latch s) =
              fun s => if s < 2 then { latch s with valid := false } else latch s := by
            intro latch
            funext s
            by_cases inside : s < 2 <;> simp [inside]
          simp only [Front.backEnd, Front.redirected, cleared, Option.or_some]
          rfl

theorem backSteps_backEnd (steps : ReflTransGen (BackStep vm cfg) e e') : BackEnd e e' := by
  induction steps with
  | refl => exact .same rfl rfl rfl
  | tail _ step ih => exact ih.trans step.backEnd

/-! ## Runs -/

theorem cycle_front (ok : e.ooo.Ok) (done : e.cycle vm cfg = some e') :
    ∃ input fetched' allocated', e'.front fetched' allocated' = (e.front fetched allocated).cycle 2 input := by
  obtain ⟨middle, e₁, e₂, back, renamed, fetch, rfl⟩ := cycle_parts ok done
  obtain ⟨flush, outside⟩ := backSteps_backEnd back
  obtain ⟨fetched₁, allocated₁, front₁⟩ := outside fetched allocated .zero fun _ _ => (IRInst.zero, none)
  obtain ⟨allocated₂, front₂⟩ := stageRn_front fetched₁ allocated₁ .zero renamed
  obtain ⟨answers, fetched₂, front₃⟩ := stageIf_front fetched₁ allocated₂ fetch
  refine ⟨⟨middle.ooo.robCount, rsUsed middle.ooo, middle.ooo.freelist.count, flush, .zero, answers⟩, fetched₂,
    allocated₂, ?_⟩
  rw [show e₂.tick.front fetched₂ allocated₂ = e₂.front fetched₂ allocated₂ from rfl, front₃, stageId_front, front₂,
    front₁]
  rfl

variable (cfg) in
theorem init_front (cpu : CPUState) (world : World σ) (bpred : β) :
    (init cfg cpu world bpred).front [] [] = Front.start cpu.pc := by
  have latches : Front.array (fun _ => PipeReg.zero) = fun _ => ⟨IRInst.zero, false⟩ := by
    funext s
    match s with
    | 0 => rfl
    | 1 => rfl
    | s + 2 => rfl
  have stations : rsUsed (oooInit cpu) = 0 := rfl
  unfold front init
  rw [stations]
  unfold oooInit Front.start
  rw [latches]

/-- A run of the engine, seen from its front end. -/
theorem run_front {cpu : CPUState} {world : World σ} {bpred : β} {k : Nat}
    (done : run vm cfg k (init cfg cpu world bpred) = some e) :
    ∃ inputs fetched allocated, inputs.length = k ∧ e.front fetched allocated = (Front.start cpu.pc).run 2 inputs := by
  suffices steps : ∀ (start : Engine σ β) (fetched allocated : List IRInst), start.ooo.Ok → start.ooo.Tidy →
      run vm cfg k start = some e → ∃ inputs fetched' allocated', inputs.length = k ∧
        e.front fetched' allocated' = (start.front fetched allocated).run 2 inputs by
    rw [← init_front cfg cpu world bpred]
    exact steps _ [] [] (oooInit_ok cpu) (oooInit_tidy cpu) done
  clear done
  induction k with
  | zero =>
      intro start fetched allocated _ _ done
      cases done
      exact ⟨[], fetched, allocated, rfl, rfl⟩
  | succ k ih =>
      intro start fetched allocated ok tidy done
      obtain ⟨e₁, first, rest⟩ := Option.bind_eq_some_iff.mp done
      obtain ⟨input, fetched₁, allocated₁, here⟩ := cycle_front fetched allocated ok first
      obtain ⟨ok₁, tidy₁, _⟩ := cycle_keeps (P := fun _ => True) (fun _ _ _ _ _ => trivial) (fun _ _ _ _ _ => trivial)
        ok tidy trivial first
      obtain ⟨inputs, fetched₂, allocated₂, length, result⟩ := ih e₁ fetched₁ allocated₁ ok₁ tidy₁ rest
      exact ⟨input :: inputs, fetched₂, allocated₂, by rw [List.length_cons, length], by rw [result, here]; rfl⟩

end Engine

end Sustemu
