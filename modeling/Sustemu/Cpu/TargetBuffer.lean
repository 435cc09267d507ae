import Sustemu.Cpu.ReturnStack
import Mathlib.Data.List.Induction

/-!
# The branch target buffer

An entry holds the newest taken control transfer of its index. Index and tag
together give back a program counter that is a multiple of four, so an entry is
only found for the instruction it was made for.
-/

set_option autoImplicit false

namespace Sustemu

open Lib BranchPredictor

/-- A call of the predictor. -/
inductive PredictorCall where
  | predict (pc : Word) (raw : Raw)
  | update (ir : IRInst)

def PredictorCall.pc : PredictorCall → Word
  | predict pc _ => pc
  | update ir => ir.pc

def PredictorCall.apply (bp : BranchPredictor) : PredictorCall → BranchPredictor
  | predict pc raw => (bpredPredict bp pc raw).2
  | update ir => bpredUpdate bp ir

/-- The predictor after a sequence of calls. -/
def callAll (calls : List PredictorCall) : BranchPredictor := calls.foldl PredictorCall.apply bpredInit

/-- A taken branch, `jal` or `jalr`: what the target buffer learns. -/
def IRInst.Learned (ir : IRInst) : Prop :=
  (ir.itype = .branch ∨ ir.itype = .jal ∨ ir.itype = .jalr) ∧ ir.dnpc ≠ ir.snpc

instance (ir : IRInst) : Decidable ir.Learned := inferInstanceAs (Decidable (_ ∧ _))

/-! ## Entries -/

/-- The newest learned instruction of an index. -/
def newestAt (calls : List PredictorCall) (index : Nat) : Option IRInst :=
  calls.foldl (fun newest call => match call with
    | .predict _ _ => newest
    | .update ir => if ir.Learned ∧ btbIndex ir.pc = index then some ir else newest) none

theorem newestAt_snoc_predict (calls : List PredictorCall) (pc : Word) (raw : Raw) (index : Nat) :
    newestAt (calls ++ [.predict pc raw]) index = newestAt calls index := List.foldl_concat ..

theorem newestAt_snoc_update (calls : List PredictorCall) (ir : IRInst) (index : Nat) :
    newestAt (calls ++ [.update ir]) index =
      if ir.Learned ∧ btbIndex ir.pc = index then some ir else newestAt calls index := List.foldl_concat ..

/-- The newest learned instruction of an index is `ir`. -/
def NewestAt (calls : List PredictorCall) (index : Nat) (ir : IRInst) : Prop :=
  ∃ earlier later, calls = earlier ++ .update ir :: later ∧ ir.Learned ∧ btbIndex ir.pc = index ∧
    ∀ other, .update other ∈ later → other.Learned → btbIndex other.pc ≠ index

theorem newestAt_eq_some_iff (calls : List PredictorCall) (index : Nat) (ir : IRInst) :
    newestAt calls index = some ir ↔ NewestAt calls index ir := by
  induction calls using List.reverseRecOn with
  | nil => exact iff_of_false nofun (by rintro ⟨earlier, later, split, _⟩; simp at split)
  | append_singleton calls call ih =>
      -- a call that learns nothing at the index changes neither side
      have passed (quiet : ∀ other, call = .update other → ¬(other.Learned ∧ btbIndex other.pc = index)) :
          NewestAt (calls ++ [call]) index ir ↔ NewestAt calls index ir := by
        constructor
        · rintro ⟨earlier, later, split, learned, here, after⟩
          rcases List.eq_nil_or_concat later with rfl | ⟨later, last, rfl⟩
          · exact absurd ⟨learned, here⟩ (quiet ir (List.append_inj_right' split rfl |> List.singleton_inj.mp))
          · rw [List.concat_eq_append, ← List.cons_append, ← List.append_assoc] at split
            refine ⟨earlier, later, List.append_inj_left' split rfl, learned, here, fun other member => after other ?_⟩
            rw [List.concat_eq_append]
            exact List.mem_append_left _ member
        · rintro ⟨earlier, later, rfl, learned, here, after⟩
          refine ⟨earlier, later ++ [call], by simp, learned, here, fun other member taken same => ?_⟩
          rcases List.mem_append.mp member with old | new
          · exact after other old taken same
          · exact quiet other (List.mem_singleton.mp new).symm ⟨taken, same⟩
      cases call with
      | predict pc raw =>
          have quiet := passed fun other same => by cases same
          rw [newestAt_snoc_predict, ih, quiet]
      | update last =>
          rw [newestAt_snoc_update]
          by_cases learns : last.Learned ∧ btbIndex last.pc = index
          · rw [if_pos learns, Option.some_inj]
            constructor
            · rintro rfl
              exact ⟨calls, [], rfl, learns.1, learns.2, fun _ member => absurd member List.not_mem_nil⟩
            · rintro ⟨earlier, later, split, _, _, after⟩
              rcases List.eq_nil_or_concat later with rfl | ⟨later, call, rfl⟩
              · exact PredictorCall.update.inj (List.singleton_inj.mp (List.append_inj_right' split rfl))
              · rw [List.concat_eq_append, ← List.cons_append, ← List.append_assoc] at split
                have same := List.singleton_inj.mp (List.append_inj_right' split rfl)
                exact absurd learns.2 (after last (by simp [same]) learns.1)
          · have quiet := passed fun other same => by
              cases same
              exact learns
            rw [if_neg learns, ih, quiet]

theorem learn_btb (bp : BranchPredictor) (pc target : Word) :
    (bp.learn pc target).btb = setAt bp.btb (btbIndex pc) ⟨btbTag pc, target, true⟩ := rfl

theorem bpredUpdate_btb (bp : BranchPredictor) (ir : IRInst) : (bpredUpdate bp ir).btb =
    if ir.Learned then setAt bp.btb (btbIndex ir.pc) ⟨btbTag ir.pc, ir.dnpc, true⟩ else bp.btb := by
  unfold bpredUpdate
  by_cases control : ir.itype = .branch ∨ ir.itype = .jal ∨ ir.itype = .jalr
  · rw [if_neg (fun none => by simp_all)]
    unfold BranchPredictor.train
    by_cases taken : ir.dnpc = ir.snpc
    · simp [IRInst.Learned, taken]
    · simp [IRInst.Learned, taken, control, learn_btb]
  · rw [if_pos (by tauto), if_neg fun learned : ir.Learned => control learned.1]

theorem bpredPredict_btb (bp : BranchPredictor) (pc : Word) (raw : Raw) : (bpredPredict bp pc raw).2.btb = bp.btb := by
  rw [bpredPredict_after]
  split
  · split <;> rfl
  · split <;> rfl

theorem callAll_btb (calls : List PredictorCall) (index : Nat) : (callAll calls).btb index =
    (newestAt calls index).elim ⟨0, 0, false⟩ fun ir => ⟨btbTag ir.pc, ir.dnpc, true⟩ := by
  induction calls using List.reverseRecOn with
  | nil => rfl
  | append_singleton calls call ih =>
      rw [show callAll (calls ++ [call]) = call.apply (callAll calls) from List.foldl_concat ..]
      cases call with
      | predict pc raw =>
          rw [newestAt_snoc_predict, ← ih]
          exact congrFun (bpredPredict_btb (callAll calls) pc raw) index
      | update ir =>
          rw [newestAt_snoc_update]
          change (bpredUpdate (callAll calls) ir).btb index = _
          rw [bpredUpdate_btb]
          by_cases learned : ir.Learned
          · rw [if_pos learned]
            by_cases here : btbIndex ir.pc = index
            · rw [if_pos ⟨learned, here⟩, here, setAt_self]
              rfl
            · rw [if_neg fun both => here both.2, setAt_of_ne (Ne.symm here)]
              exact ih
          · rw [if_neg learned, if_neg fun both => learned both.1]
            exact ih

/-! ## Lookups -/

/-- Index and tag determine an aligned program counter. -/
theorem pc_eq_of_entry {pc other : Word} (aligned : 4 ∣ pc.toNat) (aligned' : 4 ∣ other.toNat)
    (index : btbIndex other = btbIndex pc) (tag : btbTag other = btbTag pc) : other = pc := by
  have high := congrArg BitVec.toNat tag
  unfold btbIndex btbSize at index
  simp only [btbTag, BitVec.toNat_ushiftRight, Nat.shiftRight_eq_div_pow] at high index
  exact BitVec.eq_of_toNat_eq (by omega)

theorem lookup_eq_some_iff (calls : List PredictorCall) (aligned : ∀ call ∈ calls, 4 ∣ call.pc.toNat) {pc : Word}
    (aligned' : 4 ∣ pc.toNat) (entry : BTBEntry) : (callAll calls).lookup pc = some entry ↔
      ∃ ir, NewestAt calls (btbIndex pc) ir ∧ ir.pc = pc ∧ entry = ⟨btbTag pc, ir.dnpc, true⟩ := by
  unfold BranchPredictor.lookup
  rw [callAll_btb]
  cases newest : newestAt calls (btbIndex pc) with
  | none =>
      refine iff_of_false (by simp) ?_
      rintro ⟨ir, found, _⟩
      rw [(newestAt_eq_some_iff ..).mpr found] at newest
      cases newest
  | some ir =>
      have found := (newestAt_eq_some_iff ..).mp newest
      have inside : 4 ∣ ir.pc.toNat := by
        obtain ⟨earlier, later, split, _⟩ := found
        exact aligned (.update ir) (by rw [split]; exact List.mem_append_right _ List.mem_cons_self)
      have index : btbIndex ir.pc = btbIndex pc := by
        obtain ⟨_, _, _, _, here, _⟩ := found
        exact here
      by_cases tag : btbTag ir.pc = btbTag pc
      · have same := pc_eq_of_entry aligned' inside index tag
        simp only [Option.elim_some, tag, Bool.true_and, beq_self_eq_true, if_true, Option.some_inj]
        constructor
        · rintro rfl
          exact ⟨ir, found, same, rfl⟩
        · rintro ⟨other, alsoFound, _, rfl⟩
          rw [(newestAt_eq_some_iff ..).mpr alsoFound] at newest
          rw [Option.some_inj.mp newest]
      · refine iff_of_false (by simp [tag]) ?_
        rintro ⟨other, alsoFound, same, _⟩
        rw [(newestAt_eq_some_iff ..).mpr alsoFound, Option.some_inj] at newest
        rw [newest] at same
        exact tag (congrArg btbTag same)

/-- A prediction that does not pop the return-address stack looks the target up. -/
theorem bpredPredict_target (bp : BranchPredictor) {pc : Word} {raw : Raw}
    (noPop : ¬(isRet raw = true ∧ 0 < bp.rasCount)) :
    (bpredPredict bp pc raw).1.btbHit = (bp.lookup pc).isSome ∧
      (bpredPredict bp pc raw).1.target = ((bp.lookup pc).map BTBEntry.target).getD 0 := by
  unfold bpredPredict
  rw [if_neg (by simpa using noPop)]
  cases isCall raw <;> exact ⟨rfl, rfl⟩

/-- A lookup that does not pop the return-address stack finds only what was learned at this very program counter and
has not been replaced; and it finds it. -/
theorem target_buffer_exact (calls : List PredictorCall) (aligned : ∀ call ∈ calls, 4 ∣ call.pc.toNat) (pc : Word) (raw : Raw)
    (aligned' : 4 ∣ pc.toNat) (noPop : ¬(isRet raw = true ∧ 0 < (callAll calls).rasCount)) :
    ((bpredPredict (callAll calls) pc raw).1.btbHit = true →
      ∃ ir, NewestAt calls (btbIndex pc) ir ∧ ir.pc = pc ∧ (bpredPredict (callAll calls) pc raw).1.target = ir.dnpc) ∧
    ∀ earlier ir later, calls = earlier ++ .update ir :: later → ir.Learned → ir.pc = pc →
      (∀ other, .update other ∈ later → other.Learned → btbIndex other.pc ≠ btbIndex pc) →
        (bpredPredict (callAll calls) pc raw).1.btbHit = true ∧
          (bpredPredict (callAll calls) pc raw).1.target = ir.dnpc := by
  obtain ⟨hit, target⟩ := bpredPredict_target (callAll calls) noPop
  rw [hit, target]
  constructor
  · intro some
    obtain ⟨entry, found⟩ := Option.isSome_iff_exists.mp some
    obtain ⟨ir, newest, same, rfl⟩ := (lookup_eq_some_iff calls aligned aligned' entry).mp found
    rw [found]
    exact ⟨ir, newest, same, rfl⟩
  · intro earlier ir later split learned same after
    have newest : NewestAt calls (btbIndex pc) ir := ⟨earlier, later, split, learned, by rw [same], after⟩
    rw [(lookup_eq_some_iff calls aligned aligned' _).mpr ⟨ir, newest, same, rfl⟩]
    exact ⟨rfl, rfl⟩

/-- A taken jump. -/
def learnedJump : IRInst := { IRInst.zero with itype := .jal, pc := 0x80000000, snpc := 0x80000004, dnpc := 0x80000100 }

theorem target_buffer_exact_jump :
    (bpredPredict (callAll [.update learnedJump, .predict 0x80000004 0x13]) 0x80000000 0x1000006f).1.btbHit = true ∧
      (bpredPredict (callAll [.update learnedJump, .predict 0x80000004 0x13]) 0x80000000 0x1000006f).1.target =
        learnedJump.dnpc :=
  (target_buffer_exact [.update learnedJump, .predict 0x80000004 0x13] (by decide) 0x80000000 0x1000006f (by decide)
    (by decide)).2 [] learnedJump [.predict 0x80000004 0x13] rfl (by decide) rfl (by simp)

/-- A return that went elsewhere than to its caller. -/
def strayReturn : IRInst := { IRInst.zero with itype := .jalr, pc := 0x80000100, snpc := 0x80000104, dnpc := 0x80000200 }

/-- A taken jump with the index of `learnedJump`. -/
def aliasedJump : IRInst := { IRInst.zero with itype := .jal, pc := 0x80000800, snpc := 0x80000804, dnpc := 0x80000100 }

/-- The return is learned, but its next lookup pops the call in front; and another jump takes the place of a learned one. -/
theorem target_buffer_popped :
    (∀ call ∈ [PredictorCall.predict 0x80000000 0x100000ef, .update strayReturn], 4 ∣ call.pc.toNat) ∧
      strayReturn.Learned ∧
      (bpredPredict (callAll [.predict 0x80000000 0x100000ef, .update strayReturn]) strayReturn.pc 0x00008067).1.target ≠
        strayReturn.dnpc ∧
    (∀ call ∈ [PredictorCall.update learnedJump, .update aliasedJump], 4 ∣ call.pc.toNat) ∧
      learnedJump.Learned ∧
      (bpredPredict (callAll [.update learnedJump, .update aliasedJump]) learnedJump.pc 0x1000006f).1.btbHit = false := by
  decide +kernel

end Sustemu
