import Sustemu.Ooo.Runs

/-!
# Physical registers

Properties of every reachable state of the out-of-order engine: no physical
register is lost or shared, the register maps are what the reorder buffer says,
committed registers hold the architectural values, reservation stations
wait for exactly the results they need, and every instruction in flight is
tracked exactly once.
-/

set_option autoImplicit false

namespace Sustemu

open Lib

namespace OOOState

variable {o o' : OOOState}

/-! ## Conservation -/

/-- The valid entries that rename a register. -/
def writers (o : OOOState) : List RobIdx :=
  (List.finRange 32).filter fun i => (o.rob i).valid && (o.rob i).dest.isSome

/-- Their physical destinations. -/
def destinations (o : OOOState) : List PReg := o.writers.filterMap fun i => (o.rob i).physRd

/-- An entry with a destination has its physical register. -/
theorem Renamed.pending_of_dest (renamed : o.Renamed) {i : RobIdx} (valid : (o.rob i).valid = true)
    (dest : (o.rob i).dest.isSome = true) : ∃ r, (o.rob i).pending = some r ∧ (o.rob i).physRd = some r.fresh := by
  rw [← (renamed.shape i valid).1] at dest
  obtain ⟨r, pending⟩ := Option.isSome_iff_exists.mp dest
  exact ⟨r, pending, (pending_dest pending).2.1⟩

theorem Renamed.destinations_perm (renamed : o.Renamed) : o.destinations.Perm o.inFlight := by
  have liveSlots : o.live.Perm ((List.finRange 32).filter fun i => (o.rob i).valid) := by
    apply (List.perm_ext_iff_of_nodup (nodup_window _ renamed.bounded) ((List.nodup_finRange 32).filter _)).mpr
    intro i
    rw [show i ∈ window o.robHead o.robCount ↔ _ from renamed.mem_live]
    simp
  have names : ((List.finRange 32).filter fun i => (o.rob i).valid).filterMap
      (fun i => (o.rob i).pending.map Rename.fresh) = o.destinations := by
    unfold destinations writers
    rw [List.filterMap_filter, List.filterMap_filter]
    apply List.filterMap_congr
    intro i _
    cases valid : (o.rob i).valid with
    | false => rfl
    | true =>
        cases dest : (o.rob i).dest.isSome with
        | false =>
            have absent := (renamed.shape i valid).1.trans dest
            have none : (o.rob i).pending = none := Option.isNone_iff_eq_none.mp (Option.isSome_eq_false_iff.mp absent)
            rw [none]
            rfl
        | true =>
            obtain ⟨r, pending, physRd⟩ := renamed.pending_of_dest valid dest
            rw [pending, physRd]
            rfl
  rw [← names]
  exact (liveSlots.filterMap _).symm

theorem Renamed.length_destinations (renamed : o.Renamed) : o.destinations.length = o.writers.length := by
  apply List.filterMap_length_eq_length.mpr
  intro i member
  obtain ⟨_, both⟩ := List.mem_filter.mp member
  obtain ⟨valid, dest⟩ := Bool.and_eq_true_iff.mp both
  obtain ⟨r, _, physRd⟩ := renamed.pending_of_dest valid dest
  rw [physRd]
  rfl

/-- A free register is named by no map, no entry and no waiting operand. -/
theorem Inv.free_unnamed (inv : o.Inv) {p : PReg} (free : p ∈ o.freeRegs) :
    (∀ a, o.rat a ≠ p) ∧ (∀ a, o.rrat a ≠ p) ∧
    (∀ i, (o.rob i).valid = true → (o.rob i).physRd ≠ some p ∧
      ((o.rob i).dest.isSome = true → (o.rob i).oldPhys ≠ some p)) ∧
    ∀ k, (o.rs k).valid = true →
      (∀ a, a ≠ 0 → (o.rob (o.rs k).robIdx).ir.rs1 = some a → (o.rs k).src1Ptag ≠ p) ∧
      (∀ a, a ≠ 0 → (o.rob (o.rs k).robIdx).ir.rs2 = some a → (o.rs k).src2Ptag ≠ p) := by
  have renamed := inv.renamed
  have unmapped : ∀ n a, n ≤ o.robCount → o.mapAt n a ≠ p := fun n a live => renamed.mapAt_not_free live a free
  refine ⟨?_, fun a => unmapped 0 a (Nat.zero_le _), ?_, ?_⟩
  · intro a
    rw [renamed.rat]
    exact unmapped _ a (Nat.le_refl _)
  · intro i valid
    have within := (renamed.valid i).mp valid
    cases dest : (o.rob i).dest.isSome with
    | false =>
        have absent : (o.rob i).dest = none := Option.isNone_iff_eq_none.mp (Option.isSome_eq_false_iff.mp dest)
        refine ⟨?_, nofun⟩
        rcases (renamed.shape i valid).2 absent with none | zero
        · rw [none]
          exact nofun
        · rw [zero, ← renamed.zero]
          exact fun same => unmapped 0 0 (Nat.zero_le _) (Option.some.inj same)
    | true =>
        obtain ⟨r, pending, physRd⟩ := renamed.pending_of_dest valid dest
        constructor
        · rw [physRd]
          intro same
          have apart := (List.nodup_append.mp renamed.nodup).2.2
          exact apart p free _ (List.mem_append_right _ (renamed.mem_inFlight valid pending)) (Option.some.inj same).symm
        · intro _
          rw [(pending_dest pending).2.2, renamed.previous i r valid pending]
          exact fun same => unmapped _ _ (Nat.le_of_lt within) (Option.some.inj same)
  · intro k valid
    have ok := inv.placed.station k valid
    have within := (renamed.valid _).mp (inv.placed.waiting _ _ (occupant_station valid)).1
    constructor
    · intro a nonzero source
      have captured := ok.src1
      rw [source, Captured] at captured
      simp only [if_neg nonzero] at captured
      rw [captured.1]
      exact unmapped _ a (Nat.le_of_lt within)
    · intro a nonzero source
      have captured := ok.src2
      rw [source, Captured] at captured
      simp only [if_neg nonzero] at captured
      rw [captured.1]
      exact unmapped _ a (Nat.le_of_lt within)

/-! ## Registers that keep their values -/

theorem Completes.prf_of_ne {eu : EU} {s : Fin 2} {entry : ROBEntry} {result : Word} {p : PReg}
    (completes : o.Completes eu s entry result o') (nonzero : p ≠ 0)
    (other : ∀ r, (o.slotEntry eu s).pending = some r → p ≠ r.fresh) : o'.prf p = o.prf p := by
  cases pending : (o.slotEntry eu s).pending with
  | none => exact (completes.unwritten pending).1 p nonzero
  | some r =>
      rw [(completes.written r pending).1]
      exact setAt_of_ne (other r pending) ..

theorem Renames.prf_of_used {ir : IRInst} {seq : Nat} {slot : RsIdx} {p : PReg} (renames : o.Renames ir seq slot o')
    (renamed : o.Renamed) (names : (ir.rd.filter (· ≠ 0)).isSome = true → o.freelist.count ≠ 0)
    (used : p ∉ o.freeRegs) : o'.prf p = o.prf p := by
  rw [renames.prf]
  rcases newEntry_cases o ir seq with ⟨_, _, _, same⟩ | ⟨a, nonzero, rd, _, _, changed⟩
  · rw [same]
  · have available : o.freelist.count ≠ 0 := names (by rw [rd]; simpa [Option.filter] using nonzero)
    rw [changed]
    apply setAt_of_ne
    rintro rfl
    rw [(freeRegs_pop renamed.freeTail available).1] at used
    exact used List.mem_cons_self

/-- The committed registers are neither free nor about to be written. -/
theorem Renamed.rrat_used (renamed : o.Renamed) {a : Reg} (nonzero : a ≠ 0) :
    o.rrat a ≠ 0 ∧ o.rrat a ∉ o.freeRegs ∧
      ∀ i r, (o.rob i).valid = true → (o.rob i).pending = some r → o.rrat a ≠ r.fresh := by
  refine ⟨renamed.mapAt_ne_zero (Nat.zero_le _) nonzero, ?_, fun i r valid pending => renamed.rrat_ne_fresh valid pending a⟩
  exact fun free => renamed.mapAt_not_free (Nat.zero_le _) a free rfl

/-- Recovery restores the map that was current right after `b` was renamed. -/
theorem Inv.flushAfter_rat (inv : o.Inv) {b : RobIdx} (valid : (o.rob b).valid = true) :
    (o.flushAfter b).rat = (o.rob b).ratAfter := by
  have flushes := inv.flushes valid
  have within := (inv.renamed.valid b).mp valid
  have bounded := inv.renamed.bounded
  have maps : (o.flushAfter b).mapAt (o.pos b + 1) = o.mapAt (o.pos b + 1) := by
    apply mapAt_congr flushes.rrat flushes.head
    intro i member
    have older : o.pos i < o.pos b + 1 := (mem_window_iff (by omega)).mp member
    rw [flushes.older i (by omega)]
  rw [flushes.inv.renamed.rat, flushes.count, maps, inv.renamed.after b valid]

/-! ## Waiting operands -/

/-- A source operand is captured, or waits for exactly one older entry that is not ready. -/
def OperandExact (o : OOOState) (i : RobIdx) (ready : Bool) (value : Word) (tag : PReg) : Prop :=
  (ready = true ∧ (o.prf tag).ready = true ∧ value = (o.prf tag).value) ∨
    (ready = false ∧ (o.prf tag).ready = false ∧
      ∃! j, (o.rob j).valid = true ∧ (o.rob j).ready = false ∧ o.pos j < o.pos i ∧ (o.rob j).physRd = some tag)

theorem Inv.operand_exact (inv : o.Inv) {i : RobIdx} {a : Reg} {decoded value : Word} {ready : Bool} {tag : PReg}
    (valid : (o.rob i).valid = true) (nonzero : a ≠ 0)
    (captured : o.Captured (o.mapAt (o.pos i)) (some a) decoded ready value tag) :
    o.OperandExact i ready value tag := by
  have within := Nat.le_of_lt ((inv.renamed.valid i).mp valid)
  simp only [Captured, if_neg nonzero] at captured
  obtain ⟨mapped, readiness, same⟩ := captured
  cases ready with
  | true => exact .inl ⟨rfl, readiness.symm, same rfl⟩
  | false =>
      refine .inr ⟨rfl, readiness.symm, ?_⟩
      rcases inv.renamed.mapAt_origin within a with committed | ⟨j, r, validJ, older, pending, _, fresh⟩
      · rw [mapped, committed, inv.settled.committed a nonzero] at readiness
        cases readiness
      · have tagged : tag = r.fresh := mapped.trans fresh.symm
        refine ⟨j, ⟨validJ, ?_, older, ?_⟩, ?_⟩
        · rw [← inv.settled.inFlight j r validJ pending, ← tagged, ← readiness]
        · rw [tagged]
          exact (pending_dest pending).2.1
        · rintro j' ⟨validJ', _, _, physRd⟩
          have dest : (o.rob j').dest.isSome = true := by
            cases absent : (o.rob j').dest with
            | some _ => rfl
            | none =>
                have notZero := inv.renamed.fresh_ne_zero validJ pending
                rcases (inv.renamed.shape j' validJ').2 absent with none | zero
                · cases none.symm.trans physRd
                · exact absurd (tagged.symm.trans (Option.some.inj (physRd.symm.trans zero))) notZero
          obtain ⟨r', pending', physRd'⟩ := inv.renamed.pending_of_dest validJ' dest
          have sameReg : r'.fresh = r.fresh := (Option.some.inj (physRd'.symm.trans physRd)).trans tagged
          exact inv.renamed.fresh_injective validJ' validJ pending' pending sameReg

/-- Nothing is older than the head, so its operands are ready. -/
theorem Inv.head_ready (inv : o.Inv) {source : Option Reg} {decoded value : Word} {ready : Bool} {tag : PReg}
    (captured : o.Captured (o.mapAt (o.pos o.robHead)) source decoded ready value tag) : ready = true := by
  cases ready with
  | true => rfl
  | false =>
      obtain ⟨a, _, nonzero, mapped, unready⟩ := captured.not_ready
      rw [pos, age_self, mapAt_zero] at mapped
      rw [mapped, inv.settled.committed a nonzero] at unready
      cases unready

end OOOState

namespace Engine

variable {σ β : Type} {vm : VMem σ} {cfg : OooConfig β} {e e' : Engine σ β}

/-- `freelist_pop` was only ever called on a nonempty list. -/
def PopsSafely (e : Engine σ β) : Prop := ∀ count, .pop count ∈ e.log → count ≠ 0

theorem PopsSafely.append (safe : e.PopsSafely) {extra : List (Event σ)} (log : e'.log = e.log ++ extra)
    (pops : ∀ count, .pop count ∈ extra → count ≠ 0) : e'.PopsSafely := by
  intro count member
  rw [log] at member
  rcases List.mem_append.mp member with before | now
  · exact safe count before
  · exact pops count now

theorem PopsSafely.back (safe : e.PopsSafely) (step : e.BackStep vm cfg e') : e'.PopsSafely := by
  cases step with
  | note quiet =>
      refine safe.append rfl fun count member => ?_
      obtain ⟨_, _, absurdity⟩ := quiet _ member
      cases absurdity
  | drain waiting written => exact safe.append rfl fun count member => nomatch List.mem_singleton.mp member
  | commit live ready ordered sound room stored checked =>
      obtain ⟨extra, log, mismatches⟩ := (commits_of_checked stored checked).log
      refine safe.append log fun count member => ?_
      rcases List.mem_cons.mp member with absurdity | later
      · cases absurdity
      · obtain ⟨_, absurdity⟩ := mismatches _ later
        cases absurdity
  | fill addressed device mapped read completes =>
      exact safe.append rfl fun count member => nomatch List.mem_singleton.mp member
  | _ => exact safe

theorem PopsSafely.front (safe : e.PopsSafely) (step : e.FrontStep vm cfg e') : e'.PopsSafely := by
  cases step with
  | rename valid inOrder alone room names renames =>
      refine safe.append rfl fun count member => ?_
      split at member
      · next named =>
          cases List.mem_singleton.mp member
          exact names named
      · cases member
  | _ => exact safe

/-- Committed physical registers hold the architectural values. -/
structure Precise (e : Engine σ β) : Prop where
  inactive : e.difftestActive = false
  value : ∀ a, a ≠ 0 → (e.ooo.prf (e.ooo.rrat a)).value = e.cpu.gpr.get a

theorem Precise.same (precise : e.Precise) (active : e'.difftestActive = e.difftestActive) (cpu : e'.cpu = e.cpu)
    (rrat : e'.ooo.rrat = e.ooo.rrat)
    (prf : ∀ a, a ≠ 0 → (e'.ooo.prf (e.ooo.rrat a)).value = (e.ooo.prf (e.ooo.rrat a)).value) : e'.Precise where
  inactive := active.trans precise.inactive
  value := by
    intro a nonzero
    rw [rrat, cpu, prf a nonzero]
    exact precise.value a nonzero

theorem Precise.completes (precise : e.Precise) (ok : e.ooo.Ok) {eu : EU} {s : Fin 2} {entry : ROBEntry} {result : Word}
    (live : e.ooo.Live eu s) (completes : e.ooo.Completes eu s entry result e'.ooo)
    (active : e'.difftestActive = e.difftestActive) (cpu : e'.cpu = e.cpu) : e'.Precise := by
  apply precise.same active cpu completes.rrat
  intro a nonzero
  obtain ⟨notZero, _, notFresh⟩ := ok.inv.renamed.rrat_used nonzero
  rw [completes.prf_of_ne notZero]
  exact fun r => notFresh _ r (ok.inv.live_entry live).1

theorem Precise.commits (precise : e.Precise) (commits : Commits vm e e') : e'.Precise := by
  have frame := OOOState.afterCommit_frame e.ooo
  refine ⟨commits.active.trans precise.inactive, ?_⟩
  intro a nonzero
  rw [commits.regs precise.inactive, commits.ooo, frame.rrat, frame.value]
  cases (e.ooo.rob e.ooo.robHead).pending with
  | none => exact precise.value a nonzero
  | some r =>
      by_cases same : a = r.target
      · subst same
        rw [applyRename, setAt_self]
        exact (RegFile.get_set_self _ _ nonzero).symm
      · rw [applyRename, setAt_of_ne same]
        exact (precise.value a nonzero).trans (RegFile.get_set_of_ne _ _ same).symm

theorem Precise.back (precise : e.Precise) (ok : e.ooo.Ok) (step : e.BackStep vm cfg e') : e'.Precise := by
  cases step with
  | commit live ready ordered sound room stored checked =>
      exact precise.commits (commits_of_checked stored checked)
  | exec bpred fault unit live run completes faulted resolved => exact precise.completes ok live completes rfl rfl
  | redirect live run completes control wrong target =>
      rename_i s ir sys o bpred stats
      obtain ⟨_, flushes⟩ := redirect_flushes ok live run completes
      have done : ({ e with ooo := o } : Engine σ β).Precise := precise.completes ok live completes rfl rfl
      exact Precise.same done rfl rfl flushes.rrat fun a _ => flushes.value _
  | storeDone live computed store completes => exact precise.completes ok live completes rfl rfl
  | loadFault addressed outside completes => exact precise.completes ok addressed.live completes rfl rfl
  | fill addressed device mapped read completes => exact precise.completes ok addressed.live completes rfl rfl
  | _ => exact precise.same rfl rfl rfl fun _ _ => rfl

theorem Precise.front (precise : e.Precise) (ok : e.ooo.Ok) (step : e.FrontStep vm cfg e') : e'.Precise := by
  cases step with
  | rename valid inOrder alone room names renames =>
      refine Precise.same precise rfl rfl renames.rrat fun a nonzero => ?_
      exact congrArg PhysReg.value
        (renames.prf_of_used ok.inv.renamed names (ok.inv.renamed.rrat_used nonzero).2.1)
  | _ => exact precise.same rfl rfl rfl fun _ _ => rfl

theorem init_precise (off : cfg.difftestEn = false) (cpu : CPUState) (world : World σ) (bpred : β) :
    (Engine.init cfg cpu world bpred).Precise := by
  refine ⟨?_, fun a _ => ?_⟩
  · simp [Engine.init, off]
  · simp [Engine.init, oooInit, a.isLt]

section Reachable

variable {cpu : CPUState} {world : World σ} {bpred : β} {k : Nat}

/-- In every reachable state the free list, the committed map and the destinations in flight
share out the physical registers; the free list is never popped empty, and nothing names a free register. -/
theorem registers_conserved (done : run vm cfg k (Engine.init cfg cpu world bpred) = some e) :
    (e.ooo.freeRegs ++ ((List.finRange 32).map e.ooo.rrat ++ e.ooo.destinations)).Perm (List.finRange 64) ∧
      e.ooo.freelist.count + e.ooo.writers.length = 32 ∧
      e.PopsSafely ∧
      ∀ p ∈ e.ooo.freeRegs, (∀ a, e.ooo.rat a ≠ p) ∧ (∀ a, e.ooo.rrat a ≠ p) ∧
        (∀ i, (e.ooo.rob i).valid = true → (e.ooo.rob i).physRd ≠ some p ∧
          ((e.ooo.rob i).dest.isSome = true → (e.ooo.rob i).oldPhys ≠ some p)) ∧
        ∀ j, (e.ooo.rs j).valid = true →
          (∀ a, a ≠ 0 → (e.ooo.rob (e.ooo.rs j).robIdx).ir.rs1 = some a → (e.ooo.rs j).src1Ptag ≠ p) ∧
          (∀ a, a ≠ 0 → (e.ooo.rob (e.ooo.rs j).robIdx).ir.rs2 = some a → (e.ooo.rs j).src2Ptag ≠ p) := by
  obtain ⟨ok, _, safe⟩ := run_keeps (P := PopsSafely) (fun _ _ _ safe => safe.back) (fun _ _ _ safe => safe.front)
    (oooInit_ok cpu) (oooInit_tidy cpu) (fun _ member => absurd member List.not_mem_nil) done
  have renamed := ok.inv.renamed
  have names := renamed.destinations_perm
  refine ⟨?_, ?_, safe, fun p => ok.inv.free_unnamed⟩
  · exact ((names.append_left _).append_left _).trans renamed.conserved
  · have total := renamed.freelist_count
    rw [← names.length_eq, renamed.length_destinations] at total
    omega

/-- `addi x1, x0, 5` and `add x2, x1, x1`, both in flight. -/
theorem registers_conserved_boot : ∃ e, bootRun [0x00500093, 0x00108133] 3 = some e ∧
    e.ooo.freelist.count + e.ooo.writers.length = 32 ∧ e.ooo.writers.length = 2 := by
  obtain ⟨e, done, writers⟩ : ∃ e, bootRun [0x00500093, 0x00108133] 3 = some e ∧ e.ooo.writers.length = 2 := by
    have concrete : (bootRun [0x00500093, 0x00108133] 3).map (fun e => e.ooo.writers.length) = some 2 := by
      decide +kernel
    exact Option.map_eq_some_iff.mp concrete
  exact ⟨e, done, (registers_conserved done).2.1, writers⟩

/-- With differential testing off, in every reachable state: the current map is the committed map with the
renames of the reorder buffer replayed, old names are the mappings just before, committed registers are ready and
hold the architectural values, and recovery at any entry restores the map from right after its renaming. -/
theorem maps_precise (off : cfg.difftestEn = false)
    (done : run vm cfg k (Engine.init cfg cpu world bpred) = some e) :
    (e.ooo.robTail = e.ooo.robHead + Fin.ofNat 32 e.ooo.robCount ∧
      ∀ i, (e.ooo.rob i).valid = true ↔ e.ooo.pos i < e.ooo.robCount) ∧
    e.ooo.rat = e.ooo.mapAt e.ooo.robCount ∧
    (∀ i, (e.ooo.rob i).valid = true → (e.ooo.rob i).dest.isSome = true →
      ∃ r, (e.ooo.rob i).pending = some r ∧ r.previous = e.ooo.mapAt (e.ooo.pos i) r.target) ∧
    (∀ a, a ≠ 0 → e.ooo.prf (e.ooo.rrat a) = ⟨e.cpu.gpr.get a, true⟩) ∧
    ∀ b, (e.ooo.rob b).valid = true → (e.ooo.flushAfter b).rat = (e.ooo.rob b).ratAfter := by
  obtain ⟨ok, _, precise⟩ := run_keeps (P := Precise) (fun _ _ ok precise => precise.back ok)
    (fun _ _ ok precise => precise.front ok) (oooInit_ok cpu) (oooInit_tidy cpu)
    (init_precise off cpu world bpred) done
  have renamed := ok.inv.renamed
  refine ⟨⟨renamed.tail, renamed.valid⟩, renamed.rat, ?_, ?_, fun b => ok.inv.flushAfter_rat⟩
  · intro i valid dest
    obtain ⟨r, pending, _⟩ := renamed.pending_of_dest valid dest
    exact ⟨r, pending, renamed.previous i r valid pending⟩
  · intro a nonzero
    have ready := ok.inv.settled.committed a nonzero
    have value := precise.value a nonzero
    rw [← value, ← ready]

theorem maps_precise_boot : ∃ e, bootRun [0x00500093, 0x00108133] 6 = some e ∧
    (∀ a, a ≠ 0 → e.ooo.prf (e.ooo.rrat a) = ⟨e.cpu.gpr.get a, true⟩) ∧ e.cpu.gpr.get 1 = 5 := by
  obtain ⟨e, done, value⟩ : ∃ e, bootRun [0x00500093, 0x00108133] 6 = some e ∧ e.cpu.gpr.get 1 = 5 := by
    have concrete : (bootRun [0x00500093, 0x00108133] 6).map (fun e => e.cpu.gpr.get 1) = some 5 := by
      decide +kernel
    exact Option.map_eq_some_iff.mp concrete
  exact ⟨e, done, (maps_precise rfl done).2.2.2.1, value⟩

/-- In every reachable state each waiting source operand is captured exactly or waits for exactly one older
entry, and the operands of the head entry are ready. -/
theorem wakeup_exact (done : run vm cfg k (Engine.init cfg cpu world bpred) = some e) :
    ∀ j, (e.ooo.rs j).valid = true →
      (∀ a, a ≠ 0 → (e.ooo.rob (e.ooo.rs j).robIdx).ir.rs1 = some a →
        e.ooo.OperandExact (e.ooo.rs j).robIdx (e.ooo.rs j).src1Ready (e.ooo.rs j).src1Val (e.ooo.rs j).src1Ptag) ∧
      (∀ a, a ≠ 0 → (e.ooo.rob (e.ooo.rs j).robIdx).ir.rs2 = some a →
        e.ooo.OperandExact (e.ooo.rs j).robIdx (e.ooo.rs j).src2Ready (e.ooo.rs j).src2Val (e.ooo.rs j).src2Ptag) ∧
      ((e.ooo.rs j).robIdx = e.ooo.robHead → (e.ooo.rs j).src1Ready = true ∧ (e.ooo.rs j).src2Ready = true) := by
  have inv := (run_ok done).inv
  intro j valid
  have ok := inv.placed.station j valid
  have validI := (inv.placed.waiting _ _ (OOOState.occupant_station valid)).1
  have captured1 := ok.src1
  have captured2 := ok.src2
  refine ⟨fun a nonzero source => ?_, fun a nonzero source => ?_, fun head => ⟨?_, ?_⟩⟩
  · rw [source] at captured1
    exact inv.operand_exact validI nonzero captured1
  · rw [source] at captured2
    exact inv.operand_exact validI nonzero captured2
  · rw [head] at captured1
    exact inv.head_ready captured1
  · rw [head] at captured2
    exact inv.head_ready captured2

/-- `add x2, x1, x1` waits for `addi x1, x0, 5`. -/
theorem wakeup_exact_boot : ∃ e, bootRun [0x00500093, 0x00108133] 3 = some e ∧
    (e.ooo.rs 1).valid = true ∧ (e.ooo.rs 1).src1Ready = false ∧
    e.ooo.OperandExact (e.ooo.rs 1).robIdx (e.ooo.rs 1).src1Ready (e.ooo.rs 1).src1Val (e.ooo.rs 1).src1Ptag := by
  obtain ⟨e, done, facts⟩ : ∃ e, bootRun [0x00500093, 0x00108133] 3 = some e ∧
      ((e.ooo.rs 1).valid, (e.ooo.rs 1).src1Ready, (e.ooo.rob (e.ooo.rs 1).robIdx).ir.rs1) = (true, false, some 1) := by
    have concrete : (bootRun [0x00500093, 0x00108133] 3).map (fun e =>
        ((e.ooo.rs 1).valid, (e.ooo.rs 1).src1Ready, (e.ooo.rob (e.ooo.rs 1).robIdx).ir.rs1)) =
        some (true, false, some 1) := by
      decide +kernel
    exact Option.map_eq_some_iff.mp concrete
  simp only [Prod.mk.injEq] at facts
  exact ⟨e, done, facts.1, facts.2.1, (wakeup_exact done 1 facts.1).1 1 (by decide) facts.2.2⟩

/-- In every reachable state the valid entries are the circular interval from head to tail, an entry that is not
ready waits in exactly one reservation station or unit latch, and no station or latch names any other entry. -/
theorem tracked_once (done : run vm cfg k (Engine.init cfg cpu world bpred) = some e) :
    (e.ooo.robCount ≤ 32 ∧ e.ooo.robTail = e.ooo.robHead + Fin.ofNat 32 e.ooo.robCount ∧
      ∀ i, (e.ooo.rob i).valid = true ↔ i ∈ window e.ooo.robHead e.ooo.robCount) ∧
    (∀ i, (e.ooo.rob i).valid = true → (e.ooo.rob i).ready = false → ∃! place, e.ooo.occupant place = some i) ∧
    ∀ place i, e.ooo.occupant place = some i → (e.ooo.rob i).valid = true ∧ (e.ooo.rob i).ready = false := by
  have inv := (run_ok done).inv
  refine ⟨⟨inv.renamed.bounded, inv.renamed.tail, fun i => inv.renamed.mem_live.symm⟩, ?_, inv.placed.waiting⟩
  intro i valid waits
  obtain ⟨place, here⟩ := inv.placed.tracked i valid waits ((inv.renamed.valid i).mp valid)
  exact ⟨place, here, fun other there => inv.placed.unique other place i there here⟩

/-- `add x2, x1, x1` waits in a station while `addi x1, x0, 5` is in a unit latch. -/
theorem tracked_once_boot : ∃ e, bootRun [0x00500093, 0x00108133] 4 = some e ∧
    (∃! place, e.ooo.occupant place = some 0) ∧ (∃! place, e.ooo.occupant place = some 1) ∧
    e.ooo.occupant (.slot .int 0) = some 0 ∧ e.ooo.occupant (.station 1) = some 1 := by
  obtain ⟨e, done, facts⟩ : ∃ e, bootRun [0x00500093, 0x00108133] 4 = some e ∧
      (e.ooo.occupant (.slot .int 0), e.ooo.occupant (.station 1)) = (some 0, some 1) := by
    have concrete : (bootRun [0x00500093, 0x00108133] 4).map (fun e =>
        (e.ooo.occupant (.slot .int 0), e.ooo.occupant (.station 1))) = some (some 0, some 1) := by
      decide +kernel
    exact Option.map_eq_some_iff.mp concrete
  obtain ⟨first, second⟩ := Prod.mk.inj facts
  obtain ⟨_, once, waiting⟩ := tracked_once done
  obtain ⟨valid, waits⟩ := waiting _ _ first
  obtain ⟨valid', waits'⟩ := waiting _ _ second
  exact ⟨e, done, once 0 valid waits, once 1 valid' waits', first, second⟩

end Reachable

end Engine

end Sustemu
